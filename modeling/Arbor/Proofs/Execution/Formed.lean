import Arbor.Proofs.Execution.Sane

/-!
# Machines that hold well-formed functions

A function outlives the statement that made it: it waits in a frame, in a field of an instance or as
a method of a class, and its body runs when it is called.  So a run of well-formed statements stays
among well-formed trees only if all functions of the machine are well-formed when it starts, and
then they are when it ends.  It runs in frames that are there only if those are in which functions
were made.  Nothing here depends on distances: resolved or not, and however resolved, a run meets no
tree that it has no rule for.

Frames are never removed.  So what is well-formed on a machine with some number of frames stays so,
and the judgement `KeepsFormed n` is about machines that have at least `n` of them.

The frames that hold `super` are made for classes with a superclass.  No name of a program is
spelled like it, so what is found under it is a class.

## Main definitions

* `Fault.blamesTree`: the faults of a stage that meets something it has no rule for.
* `Value.Formed`, `Machine.Formed`: all functions are made of well-formed declarations, in frames
  that are there.
* `KeepsFormed`: computations that keep it so, and raise no such fault.

## Main statements

* `formed_getAt`, `formed_bindThis`, `formed_makeClass` and the others: the operations of the machine.
-/

namespace Arbor

/-- Whether a fault says that a tree holds what cannot stand there: a node of the wrong kind, a slot
without what it asks for, an operator that there is not. -/
def Fault.blamesTree : Fault → Bool
  | unexpected _ _ | slot _ | unknownUnary _ | unknownBinary _ => true
  | _ => false

/-- An end that is no fault, or a fault that does not blame the tree. -/
def Abort.SparesTree (abort : Abort) : Prop :=
  ∀ fault, abort = .fault fault → fault.blamesTree = false

section Definitions

variable (n : Nat)

/-- A function that is made of a well-formed declaration, in one of the first `n` frames. -/
structure Closure.Formed (c : Closure) : Prop where
  there : c.frame < n
  decl : c.decl.Formed Token.Spelled

/-- A class all of whose methods are well-formed, inherited ones included. -/
def Class.Formed (c : Class) : Prop :=
  ∀ name method, c.findMethod? name = some method → method.Formed n

/-- A value that brings well-formed functions only. -/
def Value.Formed : Value → Prop
  | .closure c => c.Formed n
  | .cls c => c.Formed n
  | .object i => i.ofClass.Formed n
  | _ => True

/-- A completion that hands on such a value, if it hands one on. -/
def Completion.Formed : Completion → Prop
  | .returned value => value.Formed n
  | _ => True

end Definitions

/-- A machine that has its globals, holds well-formed functions only, and under `super` only
classes. -/
structure Machine.Formed (m : Machine) : Prop where
  there : Machine.globals < m.frames.size
  held : ∀ f name v, m.frames.local? f name = some v → v.Formed m.frames.size
  super : ∀ f v, m.frames.local? f "super" = some v → ∃ c, v = .cls c
  fields : ∀ (i : Nat) fields name v, m.fields[i]? = some fields → fields.get? name = some v →
    v.Formed m.frames.size

section Values

variable {n k : Nat}

/-- A frame that was there is there when there are more. -/
theorem Closure.Formed.mono {c : Closure} (formed : c.Formed n) (more : n ≤ k) : c.Formed k :=
  ⟨Nat.lt_of_lt_of_le formed.there more, formed.decl⟩

/-- A well-formed class stays so, since each of its methods does. -/
theorem Class.Formed.mono {c : Class} (formed : c.Formed n) (more : n ≤ k) : c.Formed k :=
  fun name method found => (formed name method found).mono more

/-- Well-formed values stay so on a machine with more frames. -/
theorem Value.Formed.mono {v : Value} (formed : v.Formed n) (more : n ≤ k) : v.Formed k := by
  cases v with
  | closure c => exact Closure.Formed.mono formed more
  | cls c => exact Class.Formed.mono formed more
  | object i => exact Class.Formed.mono formed more
  | _ => trivial

/-- So does what a statement completes with. -/
theorem Completion.Formed.mono {completion : Completion} (formed : completion.Formed n)
    (more : n ≤ k) : completion.Formed k := by
  cases completion with
  | returned v => exact Value.Formed.mono formed more
  | _ => trivial

/-- Values without functions or classes in them are well-formed on any machine. -/
theorem Value.Formed.of_plain {v : Value} (plain : v.isPlain = true) : v.Formed n := by
  cases v with
  | closure | cls | object => cases plain
  | _ => trivial

/-- In particular constants of the program are. -/
theorem Value.formed_ofConstant (value : Constant) : (Value.ofConstant value).Formed n := by
  cases value <;> trivial

end Values

/-! ### Changes of a machine -/

namespace Machine.Formed

variable {m m' : Machine}

/-- Only frames and fields matter. -/
theorem congr (formed : m.Formed) (sameFrames : m'.frames = m.frames)
    (sameFields : m'.fields = m.fields) : m'.Formed := by
  obtain ⟨there, held, super, fields⟩ := formed
  exact ⟨by rwa [sameFrames], by rwa [sameFrames], by rwa [sameFrames],
    by rwa [sameFrames, sameFields]⟩

/-- A machine that has run nothing holds native functions, which are not made of any tree.  There
are no instances yet, and `super` is not bound among the globals. -/
theorem fresh (clock : Clock) (traceLevel : Nat) : (Machine.fresh clock traceLevel).Formed := by
  refine ⟨Nat.one_pos, fun f name v holds => ?_, fun f v holds => ?_,
    fun i fields name v at_i => ?_⟩
  · rcases Frames.local?_of_define holds with ⟨-, rfl⟩ | before
    · trivial
    · rw [Frames.local?_make] at before
      simp [Frames.empty, Frames.local?] at before
  · rcases Frames.local?_of_define holds with ⟨same, -⟩ | before
    · exact absurd same (by decide)
    · rw [Frames.local?_make] at before
      simp [Frames.empty, Frames.local?] at before
  · simp [Machine.fresh] at at_i

/-- Binding a well-formed value keeps the machine so.  Under `super` it has to be a class, which is
the one name that is not treated like all others. -/
theorem define (formed : m.Formed) {f : FrameId} {name : String} {value : Value}
    (new : value.Formed m.frames.size) (super : name = "super" → ∃ c, value = .cls c) :
    Formed { m with frames := m.frames.define f name value } := by
  have size : (m.frames.define f name value).size = m.frames.size := Frames.size_define ..
  refine ⟨by rw [size]; exact formed.there, fun g other v holds => ?_, fun g v holds => ?_,
    by rw [size]; exact formed.fields⟩
  · rw [size]
    rcases Frames.local?_of_define holds with ⟨rfl, rfl⟩ | before
    · exact new
    · exact formed.held g other v before
  · rcases Frames.local?_of_define holds with ⟨rfl, rfl⟩ | before
    · exact super rfl
    · exact formed.super g v before

/-- A new frame holds nothing; what was well-formed with fewer frames is so with more. -/
theorem make (formed : m.Formed) (enclosing : Option FrameId) :
    Formed { m with frames := m.frames.make enclosing } := by
  have more : m.frames.size ≤ (m.frames.make enclosing).size := by simp
  refine ⟨Nat.lt_of_lt_of_le formed.there more, fun g name v holds => ?_, fun g v holds => ?_,
    fun i fields name v at_i holds => (formed.fields i fields name v at_i holds).mono more⟩
  · rw [Frames.local?_make] at holds
    exact (formed.held g name v holds).mono more
  · rw [Frames.local?_make] at holds
    exact formed.super g v holds

/-- A new instance has no fields. -/
theorem pushFields (formed : m.Formed) : Formed { m with fields := m.fields.push {} } :=
  ⟨formed.there, formed.held, formed.super, forall_fields_push formed.fields⟩

/-- A field may be set to any well-formed value, under any name. -/
theorem putField (formed : m.Formed) {i : Nat} {name : String} {value : Value}
    (new : value.Formed m.frames.size) :
    Formed { m with fields := m.fields.modify i fun fields => fields.put name value } :=
  ⟨formed.there, formed.held, formed.super, forall_fields_put formed.fields new i name⟩

/-- The fields of an instance. -/
theorem field (formed : m.Formed) {i : Instance} {name : String} {v : Value}
    (found : (m.fieldsOf i).get? name = some v) : v.Formed m.frames.size :=
  forall_fieldsOf formed.fields found

end Machine.Formed

namespace Execution

open Eval Stateful Scope

/-! ### Computations that keep machines well-formed -/

/-- On a machine that holds well-formed functions only and has at least `n` frames, `x` leaves such
a machine behind, however it ends; if it returns, `returns` holds of the number of frames and of
what it returns; if it stops, it does not blame the tree. -/
def KeepsFormed {α : Type} (n : Nat) (x : Eval α) (returns : Nat → α → Prop) : Prop :=
  ∀ m : Machine, m.Formed → n ≤ m.frames.size → Ensures x m
    (fun a m' => m'.Formed ∧ m.frames.size ≤ m'.frames.size ∧ returns m'.frames.size a)
    fun abort m' => m'.Formed ∧ abort.SparesTree

variable {n : Nat}

namespace KeepsFormed

variable {α β : Type} {x : Eval α} {returns : Nat → α → Prop}

/-- In sequence the second computation may rely on what the first one returned, on the frames there
are by then. -/
theorem bind {k : α → Eval β} {after : Nat → β → Prop} (first : KeepsFormed n x returns)
    (second : ∀ a l, n ≤ l → returns l a → KeepsFormed l (k a) after) :
    KeepsFormed n (x >>= k) after := by
  intro m formed enough
  refine (first m formed enough).bind fun a m₁ _ both => ?_
  obtain ⟨formed₁, more, holds⟩ := both
  have rest := second a _ (Nat.le_trans enough more) holds m₁ formed₁ (Nat.le_refl _)
  exact rest.mono (fun _ _ all => ⟨all.1, Nat.le_trans more all.2.1, all.2.2⟩) fun _ _ all => all

/-- What is kept on many machines is kept on fewer. -/
theorem later {l : Nat} (keeps : KeepsFormed n x returns) (more : n ≤ l) :
    KeepsFormed l x returns :=
  fun m formed enough => keeps m formed (Nat.le_trans more enough)

/-- Less may be claimed of what is returned. -/
theorem mono {returns' : Nat → α → Prop} (keeps : KeepsFormed n x returns)
    (weaker : ∀ l a, returns l a → returns' l a) : KeepsFormed n x returns' :=
  fun m formed enough => (keeps m formed enough).mono
    (fun a _ all => ⟨all.1, all.2.1, weaker _ a all.2.2⟩) fun _ _ all => all

/-- What is given without running has to be well-formed on any machine with enough frames. -/
theorem pure {a : α} (holds : ∀ l, n ≤ l → returns l a) : KeepsFormed n (Pure.pure a) returns :=
  fun _ formed enough => ⟨formed, Nat.le_refl _, holds _ enough⟩

/-- Something well-formed is returned as it is. -/
theorem value {v : Value} (formed : v.Formed n) : KeepsFormed n (Pure.pure v) Value.Formed :=
  pure fun _ more => formed.mono more

/-- Stopping is allowed for any reason that does not blame the tree. -/
theorem throw {abort : Abort} (spares : abort.SparesTree) :
    KeepsFormed n (MonadExcept.throw abort : Eval α) returns :=
  fun _ formed _ => ⟨formed, spares⟩

/-- Errors of the program do not. -/
theorem fail (line : Int) (cause : RuntimeCause) : KeepsFormed n (Eval.fail line cause) returns :=
  throw nofun

/-- Neither does nesting too deeply. -/
theorem tooDeep : KeepsFormed n (MonadExcept.throw Abort.tooDeep : Eval α) returns :=
  throw nofun

/-- A fault that does not blame the tree. -/
theorem fault {fault : Fault} (spares : fault.blamesTree = false) :
    KeepsFormed n (MonadExcept.throw (Abort.fault fault) : Eval α) returns := by
  refine throw fun other same => ?_
  cases same
  exact spares

/-- A computation that looks at the machine first. -/
theorem look {k : Machine → Eval α}
    (rest : ∀ m, m.Formed → n ≤ m.frames.size → KeepsFormed m.frames.size (k m) returns) :
    KeepsFormed n (get >>= k) returns :=
  fun m formed enough => rest m formed enough m formed (Nat.le_refl _)

/-- A change that leaves frames and fields alone. -/
theorem modifyGet {f : Machine → α × Machine} (same : ∀ m, (f m).2.frames = m.frames ∧
    (f m).2.fields = m.fields) (holds : ∀ l m, returns l (f m).1) :
    KeepsFormed n (MonadState.modifyGet f : Eval α) returns := by
  intro m formed _
  refine .modifyGet ⟨formed.congr (same m).1 (same m).2, ?_, holds _ m⟩
  exact Nat.le_of_eq (congrArg Frames.size (same m).1.symm)

/-- The judgement read off a run that returned. -/
theorem of_ok {a : α} {m m' : Machine} (keeps : KeepsFormed n x returns) (formed : m.Formed)
    (enough : n ≤ m.frames.size) (ran : x.run m = .ok a m') :
    m'.Formed ∧ m.frames.size ≤ m'.frames.size ∧ returns m'.frames.size a :=
  (keeps m formed enough).of_ok ran

end KeepsFormed

/-! ### Operations of the machine -/

section Operations

theorem formed_note (event : Event) : KeepsFormed n (note event) fun _ _ => True :=
  .modifyGet (fun _ => ⟨rfl, rfl⟩) fun _ _ => trivial

theorem formed_print (value : Value) : KeepsFormed n (print value) fun _ _ => True :=
  .modifyGet (fun _ => ⟨rfl, rfl⟩) fun _ _ => trivial

theorem formed_freshId : KeepsFormed n freshId fun _ _ => True :=
  .modifyGet (fun _ => ⟨rfl, rfl⟩) fun _ _ => trivial

/-- The clock shows a number. -/
theorem formed_readClock : KeepsFormed n readClock Value.Formed :=
  .modifyGet (fun _ => ⟨rfl, rfl⟩) fun _ _ => trivial

/-- A new frame is there once it is made, so functions may be made in it. -/
theorem formed_newFrame (enclosing : FrameId) :
    KeepsFormed n (newFrame enclosing) fun l f => f < l := by
  intro m formed _
  refine ⟨formed.make _, ?_, ?_⟩
  · exact (Frames.size_make ..).symm ▸ Nat.le_succ _
  · exact (Frames.size_make ..).symm ▸ Nat.lt_succ_self _

/-- Names are bound to well-formed values, and `super` to classes. -/
theorem formed_define {name : String} {value : Value} (new : value.Formed n)
    (super : name = "super" → ∃ c, value = .cls c) (f : FrameId) :
    KeepsFormed n (define f name value) fun _ _ => True := by
  intro m formed enough
  refine ⟨formed.define (new.mono enough) super, ?_, trivial⟩
  exact Nat.le_of_eq (Frames.size_define ..).symm

/-- Binding a name of the program. -/
theorem formed_bind {name : Token} {value : Value} (plain : Plain name.lexeme)
    (new : value.Formed n) (f : FrameId) :
    KeepsFormed n (define f name.lexeme value) fun _ _ => True :=
  formed_define new (fun same => absurd same plain.2) f

/-- A function is made of a declaration of the program, in a frame that is there. -/
theorem formed_newClosure {decl : FunDecl} {f : FrameId} (function : decl.Formed Token.Spelled)
    (there : f < n) (isInitializer : Bool) :
    KeepsFormed n (newClosure decl f isInitializer) fun l c => Value.Formed l (.closure c) :=
  formed_freshId.bind fun _ _ more _ => .pure fun _ more' =>
    ⟨Nat.lt_of_lt_of_le there (Nat.le_trans more more'), function⟩

/-- An instance is well-formed if the methods of its class are. -/
theorem formed_newInstance {c : Class} (methods : c.Formed n) :
    KeepsFormed n (newInstance c) fun l i => Value.Formed l (.object i) :=
  fun _ formed enough => ⟨formed.pushFields, Nat.le_refl _, methods.mono enough⟩

/-- What is set is a value of the program, and so well-formed. -/
theorem formed_setProperty (i : Instance) (name : String) {value : Value} (new : value.Formed n) :
    KeepsFormed n (setProperty i name value) fun _ _ => True :=
  fun _ formed enough => ⟨formed.putField (new.mono enough), Nat.le_refl _, trivial⟩

/-- What an operator returns holds no function, and the operators of well-formed trees are known. -/
theorem formed_orFailure (operator : Token) {result : Except Operator.Failure Value}
    (plain : ∀ v, result = .ok v → v.isPlain = true)
    (known : ∀ fault, result ≠ .error (.fault fault)) :
    KeepsFormed n (orFailure operator result) Value.Formed := by
  rcases result with (cause | fault) | v
  · exact .fail _ _
  · exact absurd rfl (known fault)
  · exact .value (.of_plain (plain v rfl))

/-- A name that is missing is no fault of the tree.  Such a lookup fails because there are not
enough frames, or because the one at the distance does not hold the name; both are faults of the
machine. -/
theorem blamesTree_of_holderAt {frames : Frames Value} {f : FrameId} {distance : Int}
    {name : String} {fault : Fault} (missing : frames.holderAt f distance name = .error fault) :
    fault.blamesTree = false := by
  unfold Frames.holderAt Frames.ancestor at missing
  cases reached : frames.ancestor? distance.toNat f with
  | none =>
    rw [reached] at missing
    cases missing
    rfl
  | some g =>
    rw [reached] at missing
    cases held : frames.local? g name with
    | none =>
      simp only [Bind.bind, Except.bind, held] at missing
      cases missing
      rfl
    | some v =>
      simp only [Bind.bind, Except.bind, held] at missing
      cases missing

/-- What is read at a distance is held by some frame, so it is well-formed; and what is read under
the name `super` is a class, since nothing else is ever bound to that. -/
theorem formed_getAt (f : FrameId) (distance : Int) (name : String) :
    KeepsFormed n (getAt f distance name) fun l v =>
      v.Formed l ∧ (name = "super" → ∃ c, v = .cls c) := by
  refine .look fun m formed _ => ?_
  unfold Frames.getAt
  cases found : m.frames.holderAt f distance name with
  | error fault => exact .fault (blamesTree_of_holderAt found)
  | ok pair =>
    obtain ⟨g, v⟩ := pair
    have held := local?_of_holderAt found
    refine .pure fun l more => ⟨(formed.held g name v held).mono more, fun same => ?_⟩
    subst same
    exact formed.super g v held

/-- What is held among the globals is well-formed, and a name that is not is an error of the
program. -/
theorem formed_getGlobal (name : Token) : KeepsFormed n (getGlobal name) Value.Formed := by
  refine .look fun m formed _ => ?_
  unfold Frames.get
  split
  · next v found =>
    obtain ⟨g, -, held⟩ := List.exists_of_findSome?_eq_some found
    exact .value (formed.held g _ v held)
  · exact .fail _ _

/-- So is what a reference refers to, at a distance or not. -/
theorem formed_lookUp (f : FrameId) (name : Token) (hops : Option Nat) :
    KeepsFormed n (lookUp f name hops) Value.Formed := by
  cases hops with
  | some hops => exact (formed_getAt f hops name.lexeme).mono fun _ _ held => held.1
  | none => exact formed_getGlobal name

/-- An assignment changes a value under a name of the program, which is never `super`. -/
theorem formed_assign (f : FrameId) {name : Token} {value : Value} (plain : Plain name.lexeme)
    (new : value.Formed n) : KeepsFormed n (assign f name value) fun _ _ => True := by
  refine .look fun m _ enough => ?_
  split
  · exact formed_bind plain (new.mono enough) _
  · exact .fail _ _

/-- So does an assignment at a distance.  It stores a value under a name that is there already, and
faults if there is none, which is no fault of the tree. -/
theorem formed_store (f : FrameId) {name : Token} {value : Value} (hops : Option Nat)
    (plain : Plain name.lexeme) (new : value.Formed n) :
    KeepsFormed n (store f name value hops) fun _ _ => True := by
  cases hops with
  | some hops =>
    refine .look fun m _ enough => ?_
    cases found : m.frames.holderAt f hops name.lexeme with
    | error fault => exact .fault (blamesTree_of_holderAt found)
    | ok pair => exact formed_bind plain (new.mono enough) _
  | none => exact formed_assign _ plain new

/-- A bound method is made of the declaration of the method, in a frame made for its receiver. -/
theorem formed_bindThis {c : Closure} {receiver : Value} (method : c.Formed n)
    (new : receiver.Formed n) :
    KeepsFormed n (bindThis c receiver) fun l bound => Value.Formed l (.closure bound) := by
  refine (formed_newFrame c.frame).bind fun frame l more there => ?_
  have bound : KeepsFormed l (define frame "this" receiver) fun _ _ => True :=
    formed_define (new.mono more) (fun same => absurd same (by decide)) frame
  refine bound.bind fun _ _ more' _ => ?_
  exact formed_newClosure method.decl (Nat.lt_of_lt_of_le there more') c.isInitializer

/-- A property is a field, which is well-formed, or a method of a well-formed class.  The method is
bound in a new frame, where `this` is the instance. -/
theorem formed_getProperty {i : Instance} (name : Token) (methods : i.ofClass.Formed n) :
    KeepsFormed n (getProperty i name) Value.Formed := by
  refine .look fun m formed enough => ?_
  split
  · next v found => exact .value (formed.field found)
  · split
    · next method found =>
      have receiver : Value.Formed m.frames.size (.object i) := methods.mono enough
      have bound := formed_bindThis ((methods _ _ found).mono enough) receiver
      exact bound.bind fun _ _ _ made => .value made
    · exact .fail _ _

/-- Of anything but an instance a property is an error of the program. -/
theorem formed_propertyOf {object : Value} (name : Token) (new : object.Formed n) :
    KeepsFormed n (propertyOf object name) Value.Formed := by
  cases object with
  | object i => exact formed_getProperty name new
  | _ => exact .fail _ _

/-- What `super` names is a class, whatever the distance.  So the lookup of the method is all that
can go wrong, apart from the two frames not being there. -/
theorem formed_superMethod (f : FrameId) (method : Token) (hops : Option Nat) :
    KeepsFormed n (superMethod f method hops) Value.Formed := by
  cases hops with
  | none => exact .fault rfl
  | some hops =>
    refine (formed_getAt f hops "super").bind fun parent _ _ held => ?_
    refine (formed_getAt f _ "this").bind fun receiver _ more this => ?_
    obtain ⟨c, rfl⟩ := held.2 rfl
    have inherited : c.Formed _ := held.1
    dsimp only
    split
    · next found =>
      have bound := formed_bindThis ((inherited _ _ found).mono more) this.1
      exact bound.bind fun _ _ _ made => .value made
    · exact .fail _ _

/-- The parameters of a well-formed function are spelled as names. -/
theorem plain_params {decl : FunDecl} (formed : decl.Formed Token.Spelled) :
    ∀ param ∈ decl.params, Plain param.lexeme :=
  fun param mem => plain_of_spelled (formed.params param mem).1 (formed.params param mem).2

/-- Parameters are bound to arguments, and none of them is `super`.  The induction is on both lists,
and the arguments stay well-formed while the frame grows. -/
theorem formed_bindParams (f : FrameId) : ∀ {n : Nat} {params : List Token}
    {arguments : List Value}, (∀ param ∈ params, Plain param.lexeme) →
      (∀ v ∈ arguments, v.Formed n) →
      KeepsFormed n (bindParams f params arguments) fun _ _ => True
  | _, [], _, _, _ => .pure fun _ _ => trivial
  | _, _ :: _, [], _, _ => .pure fun _ _ => trivial
  | _, param :: params, argument :: arguments, plain, new => by
    have first := formed_bind (plain param List.mem_cons_self) (new argument List.mem_cons_self) f
    refine first.bind fun _ _ more _ => formed_bindParams f ?_ ?_
    · exact fun other mem => plain other (List.mem_cons_of_mem _ mem)
    · exact fun v mem => (new v (List.mem_cons_of_mem _ mem)).mono more

/-- What a call returns is what its body did, or the receiver. -/
theorem formed_outcomeOf (c : Closure) {completion : Completion} (new : completion.Formed n) :
    KeepsFormed n (outcomeOf c completion) Value.Formed := by
  unfold outcomeOf
  split
  · exact (formed_getAt c.frame 0 "this").mono fun _ _ held => held.1
  · cases completion with
    | normal => exact .pure fun _ _ => trivial
    | returned value => exact .value new
    | broke | continued => exact .fault rfl

/-- What is taken for a superclass is a class, and a well-formed one. -/
theorem formed_requireClass (name : Token) {value : Value} (new : value.Formed n) :
    KeepsFormed n (requireClass name value) Class.Formed := by
  cases value with
  | cls c => exact .pure fun _ more => Class.Formed.mono new more
  | _ => exact .fail _ _

/-- The methods of a class are made of the declarations, in the given frame.  They are well-formed
since the declarations are, and the frame is there. -/
theorem formed_makeMethods {g : FrameId} {decls : List FunDecl} (there : g < n)
    (each : FunDecl.AllFormed Token.Spelled decls) :
    KeepsFormed n (makeMethods g decls {}) fun l methods =>
      ∀ name c, methods.get? name = some c → c.Formed l := by
  intro m formed enough
  refine (ensures_makeMethods g decls {} m).mono (fun methods m' spec => ?_) fun _ _ no => no.elim
  obtain ⟨⟨sameFrames, sameFields⟩, made⟩ := spec
  rw [sameFrames]
  refine ⟨formed.congr sameFrames sameFields, Nat.le_refl _, fun name c found => ?_⟩
  rcases made name c found with none | ⟨mem, inFrame⟩
  · simp at none
  · refine ⟨?_, FunDecl.allFormed_iff.mp each _ mem⟩
    rw [inFrame]
    exact Nat.lt_of_lt_of_le there enough

/-- The methods of a class are made in a frame that is there, and `super` is bound to a class in it.
This is the one place where `super` is bound at all. -/
theorem formed_methodFrame {f : FrameId} {superclass : Option Class} (there : f < n)
    (inherited : ∀ parent, superclass = some parent → parent.Formed n) :
    KeepsFormed n (methodFrame f superclass) fun l g => g < l := by
  cases superclass with
  | none => exact .pure fun _ more => Nat.lt_of_lt_of_le there more
  | some parent =>
    refine (formed_newFrame f).bind fun inner l more there => ?_
    have held : Value.Formed l (.cls parent) := (inherited parent rfl).mono more
    refine (formed_define held (fun _ => ⟨parent, rfl⟩) inner).bind fun _ _ more' _ => ?_
    exact .pure fun _ more'' => Nat.lt_of_lt_of_le there (Nat.le_trans more' more'')

/-- A class is made of the declarations of its methods and of what it inherits, and bound under its
name.  What a formed class answers for is its methods: those of its own come from formed
declarations, and the others were formed in the superclass already. -/
theorem formed_makeClass {f : FrameId} {name : Token} {superclass : Option Class}
    {decls : List FunDecl} (there : f < n) (plain : Plain name.lexeme)
    (inherited : ∀ parent, superclass = some parent → parent.Formed n)
    (each : FunDecl.AllFormed Token.Spelled decls) :
    KeepsFormed n (makeClass f name superclass decls) fun _ _ => True := by
  have nothing : Value.Formed n .nil := trivial
  refine (formed_bind plain nothing f).bind fun _ n₁ more₁ _ => ?_
  have inherited₁ : ∀ parent, superclass = some parent → parent.Formed n₁ :=
    fun parent same => (inherited parent same).mono more₁
  have framed := formed_methodFrame (Nat.lt_of_lt_of_le there more₁) inherited₁
  refine framed.bind fun g n₂ more₂ inner => ?_
  refine (formed_makeMethods inner each).bind fun methods n₃ more₃ own => ?_
  have made : KeepsFormed n₃ (newClass name.lexeme superclass methods) fun l c =>
      Value.Formed l (.cls c) := by
    refine formed_freshId.bind fun _ _ more₄ _ => .pure fun _ more₅ sought method found => ?_
    rcases Class.own_or_inherited found with here | ⟨parent, same, found⟩
    · exact (own sought method here).mono (Nat.le_trans more₄ more₅)
    · have later := Nat.le_trans (Nat.le_trans more₂ more₃) (Nat.le_trans more₄ more₅)
      exact (inherited₁ parent same sought method found).mono later
  refine made.bind fun c _ _ value => ?_
  exact (formed_assign f plain value).bind fun _ _ _ _ => formed_note _

end Operations

end Execution
end Arbor
