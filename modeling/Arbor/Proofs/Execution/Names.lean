import Arbor.Execution
import Arbor.Proofs.Stateful
import Arbor.Proofs.Scope.Effect

/-!
# Which names frames hold

Frames are never removed, their links never change, and a name once bound stays bound.  Names are
added to a frame only by the statements that introduce them, executed in that very frame: evaluating
an expression, whatever it calls, adds no name to any frame that was there before.  This holds for
all trees, resolved or not, and however a computation ends.

## Main definitions

* `Frames.Changes`: what may happen to the frames while statements that introduce some names
  run in a frame.

## Main statements

* `changes_evaluate`, `changes_execute` and the others: every function of the evaluator keeps to it.
-/

namespace Arbor

/-- From `old` to `new` at most frames were made, values were changed, and some of `names` were
bound in `frame`. -/
structure Frames.Changes (frame : FrameId) (names : List String) (old new : Frames Value) :
    Prop where
  size : old.size ≤ new.size
  links : ∀ g < old.size, new.enclosing? g = old.enclosing? g
  keeps : ∀ g name, (old.local? g name).isSome = true → (new.local? g name).isSome = true
  adds : ∀ g < old.size, ∀ name, (new.local? g name).isSome = true →
    (old.local? g name).isSome = true ∨ g = frame ∧ name ∈ names

namespace Frames

/-- A frame that holds a name is there. -/
theorem lt_size_of_local? {α : Type} {s : Frames α} {f : FrameId} {name : String}
    (holds : (s.local? f name).isSome = true) : f < s.size := by
  rcases Nat.lt_or_ge f s.size with there | beyond
  · exact there
  · have absent : s.cells[f]? = none := Array.getElem?_eq_none beyond
    simp [local?, absent] at holds

/-- What a frame holds after a name was bound in some frame.  Nothing is gained if the frame that
was to be changed is not there. -/
theorem isSome_local?_define {α : Type} {s : Frames α} {f g : FrameId} {name other : String}
    {value : α} :
    ((s.define f name value).local? g other).isSome = true ↔
      (s.local? g other).isSome = true ∨ g = f ∧ other = name ∧ f < s.size := by
  by_cases same : g = f ∧ other = name
  · obtain ⟨rfl, rfl⟩ := same
    rcases Nat.lt_or_ge g s.size with there | beyond
    · simp [local?_define_self s there, there]
    · have absent : s.cells[g]? = none := Array.getElem?_eq_none beyond
      simp [define, local?, Array.getElem?_modify, absent, Nat.not_lt.mpr beyond]
  · have apart : g ≠ f ∨ other ≠ name := by
      by_cases here : g = f
      · exact .inr fun named => same ⟨here, named⟩
      · exact .inl here
    rw [local?_define_of_ne s apart value]
    constructor
    · exact .inl
    · rintro (holds | ⟨here, named, -⟩)
      · exact holds
      · exact absurd ⟨here, named⟩ same

/-- What is held after a name was bound is the new value, or was held before.  The second also
covers that the frame to be changed is not there. -/
theorem local?_of_define {α : Type} {s : Frames α} {f g : FrameId} {name other : String}
    {value v : α} (holds : (s.define f name value).local? g other = some v) :
    (other = name ∧ v = value) ∨ s.local? g other = some v := by
  by_cases same : g = f ∧ other = name
  · obtain ⟨rfl, rfl⟩ := same
    have there := lt_size_of_local? (Option.isSome_of_eq_some holds)
    rw [size_define] at there
    rw [local?_define_self _ there] at holds
    exact .inl ⟨rfl, (Option.some.inj holds).symm⟩
  · have apart : g ≠ f ∨ other ≠ name := by
      by_cases here : g = f
      · exact .inr fun named => same ⟨here, named⟩
      · exact .inl here
    rw [local?_define_of_ne _ apart] at holds
    exact .inr holds

namespace Changes

variable {frame inner : FrameId} {names more : List String} {a b c : Frames Value}

/-- Nothing having happened is allowed in any frame, for any names. -/
theorem refl (frame : FrameId) (names : List String) (a : Frames Value) :
    Changes frame names a a :=
  ⟨Nat.le_refl _, fun _ _ => rfl, fun _ _ holds => holds, fun _ _ _ holds => .inl holds⟩

/-- Changes one after the other, if what the second adds to the frames that were there before the
first is allowed. -/
theorem andThen (first : Changes frame names a b) (second : Changes inner more b c)
    (allowed : ∀ g name, g < a.size → g = inner ∧ name ∈ more → g = frame ∧ name ∈ names) :
    Changes frame names a c := by
  refine ⟨Nat.le_trans first.size second.size, fun g there => ?_, fun g name holds => ?_,
    fun g there name holds => ?_⟩
  · exact (second.links g (Nat.lt_of_lt_of_le there first.size)).trans (first.links g there)
  · exact second.keeps g name (first.keeps g name holds)
  · rcases second.adds g (Nat.lt_of_lt_of_le there first.size) name holds with holds | added
    · exact first.adds g there name holds
    · exact .inr (allowed g name there added)

/-- What is allowed once is allowed twice, with the same names: links and names last, so a name that
the second part adds was either there or added by the first. -/
theorem trans (first : Changes frame names a b) (second : Changes frame names b c) :
    Changes frame names a c :=
  first.andThen second fun _ _ _ added => added

/-- More may be allowed. -/
theorem weaken (changes : Changes frame names a b) (sub : ∀ name ∈ names, name ∈ more) :
    Changes frame more a b :=
  ⟨changes.size, changes.links, changes.keeps, fun g there name holds =>
    (changes.adds g there name holds).imp_right fun added => ⟨added.1, sub name added.2⟩⟩

/-- Where no name is added it does not matter to which frame. -/
theorem calm (changes : Changes inner [] a b) : Changes frame names a b :=
  ⟨changes.size, changes.links, changes.keeps, fun g there name holds =>
    (changes.adds g there name holds).imp_right fun added => absurd added.2 List.not_mem_nil⟩

/-- What is added to a frame that was made meanwhile is not added to one that was there before. -/
theorem inside (first : Changes frame names a b) (new : a.size ≤ inner)
    (second : Changes inner more b c) : Changes frame names a c := by
  refine first.andThen second fun g name there added => ?_
  exact absurd added.1 (Nat.ne_of_lt (Nat.lt_of_lt_of_le there new))

/-- A new frame has a number beyond those that there were, and holds no name yet. -/
theorem make (enclosing : Option FrameId) : Changes frame names a (a.make enclosing) := by
  refine ⟨by simp, fun g there => ?_, fun g name holds => ?_, fun g there name holds => ?_⟩
  · exact enclosing?_make_of_ne a enclosing (Nat.ne_of_lt there)
  · rwa [local?_make]
  · rw [local?_make] at holds
    exact .inl holds

/-- A name that is introduced may be bound in the frame that is run in. -/
theorem define {name : String} (mem : name ∈ names) (value : Value) :
    Changes frame names a (a.define frame name value) := by
  refine ⟨by simp, fun g there => enclosing?_define a frame g name value, fun g other holds => ?_,
    fun g there other holds => ?_⟩
  · exact isSome_local?_define.mpr (.inl holds)
  · rcases isSome_local?_define.mp holds with holds | ⟨here, rfl, -⟩
    · exact .inl holds
    · exact .inr ⟨here, mem⟩

/-- A bound name may change its value anywhere. -/
theorem redefine {g : FrameId} {name : String} (bound : (a.local? g name).isSome = true)
    (value : Value) : Changes frame names a (a.define g name value) := by
  refine ⟨by simp, fun h there => enclosing?_define a g h name value, fun h other holds => ?_,
    fun h there other holds => ?_⟩
  · exact isSome_local?_define.mpr (.inl holds)
  · rcases isSome_local?_define.mp holds with holds | ⟨rfl, rfl, -⟩
    · exact .inl holds
    · exact .inl bound

end Changes
end Frames

namespace Execution

open Eval Stateful

/-! ### Computations that keep to what is allowed -/

/-- However `x` ends, at most `names` were bound in `frame`, among the frames there were. -/
def Binds {α : Type} (frame : FrameId) (names : List String) (x : Eval α) : Prop :=
  ∀ m : Machine, Ensures x m (fun _ m' => m.frames.Changes frame names m'.frames)
    fun _ m' => m.frames.Changes frame names m'.frames

namespace Binds

variable {α β : Type} {frame inner : FrameId} {names more : List String}

/-- One computation after the other keeps to what both keep to.  Where the first one stops, what it
did up to then counts, so both ways of ending are part of the judgement. -/
theorem bind {x : Eval α} {k : α → Eval β} (first : Binds frame names x)
    (second : ∀ a, Binds frame names (k a)) : Binds frame names (x >>= k) := by
  intro m
  refine (first m).bind fun a m₁ _ changed => ?_
  exact (second a m₁).mono (fun _ _ more => changed.trans more) fun _ _ more => changed.trans more

/-- A result changes nothing. -/
theorem pure (a : α) : Binds frame names (Pure.pure a) :=
  fun m => .refl frame names m.frames

/-- Stopping changes nothing by itself. -/
theorem throw (abort : Abort) : Binds frame names (MonadExcept.throw abort : Eval α) :=
  fun m => .refl frame names m.frames

/-- More names may be allowed than are introduced. -/
theorem weaken {x : Eval α} (binds : Binds frame names x) (sub : ∀ name ∈ names, name ∈ more) :
    Binds frame more x :=
  fun m => (binds m).mono (fun _ _ changes => changes.weaken sub) fun _ _ changes =>
    changes.weaken sub

/-- What introduces no name in one frame introduces none in any other frame either. -/
theorem calm {x : Eval α} (binds : Binds inner [] x) : Binds frame names x :=
  fun m => (binds m).mono (fun _ _ changes => changes.calm) fun _ _ changes => changes.calm

/-- A change of the machine that leaves the frames alone. -/
theorem modifyGet {f : Machine → α × Machine} (same : ∀ m, (f m).2.frames = m.frames) :
    Binds frame names (MonadState.modifyGet f : Eval α) := by
  intro m
  refine .modifyGet ?_
  rw [same m]
  exact .refl frame names m.frames

/-- A change of the machine that leaves the frames alone is allowed anywhere. -/
theorem modify {f : Machine → Machine} (same : ∀ m, (f m).frames = m.frames) :
    Binds frame names (modify f : Eval PUnit) := by
  intro m
  refine .modify ?_
  rw [same m]
  exact .refl frame names m.frames

end Binds

/-! ### The operations of the machine -/

section Operations

variable {frame : FrameId} {names : List String}

theorem binds_note (event : Event) : Binds frame names (note event) :=
  .modify fun _ => rfl

theorem binds_print (value : Value) : Binds frame names (print value) :=
  .modify fun _ => rfl

theorem binds_freshId : Binds frame names freshId :=
  .modifyGet fun _ => rfl

/-- An instance has fields, which are not names of any frame. -/
theorem binds_newInstance (c : Class) : Binds frame names (newInstance c) :=
  .modifyGet fun _ => rfl

/-- So a property may be set under any name. -/
theorem binds_setProperty (i : Instance) (name : String) (value : Value) :
    Binds frame names (setProperty i name value) :=
  .modify fun _ => rfl

/-- A closure refers to a frame and does not change it. -/
theorem binds_newClosure (decl : FunDecl) (f : FrameId) (isInitializer : Bool) :
    Binds frame names (newClosure decl f isInitializer) :=
  binds_freshId.bind fun _ => .pure _

/-- Binding a name is the one operation that introduces it, and it is allowed where the name is. -/
theorem binds_define {name : String} (mem : name ∈ names) (value : Value) :
    Binds frame names (define frame name value) :=
  fun _ => .define mem value

/-- An operation that can only meet a fault has looked at the machine and not changed it. -/
theorem binds_orFault {α : Type} (result : Except Fault α) : Binds frame names (orFault result) := by
  cases result with
  | ok value => exact .pure value
  | error fault => exact .throw _

/-- Neither has one that can fail in the program. -/
theorem binds_orFail {α : Type} (line : Int) (result : Except RuntimeCause α) :
    Binds frame names (orFail line result) := by
  cases result with
  | ok value => exact .pure value
  | error cause => exact .throw _

theorem binds_orFailure (operator : Token) (result : Except Operator.Failure Value) :
    Binds frame names (orFailure operator result) := by
  rcases result with failure | value
  · cases failure <;> exact .throw _
  · exact .pure value

/-- A computation that looks at the machine first. -/
theorem binds_get {α : Type} {k : Machine → Eval α}
    (rest : ∀ m, Ensures (k m) m (fun _ m' => m.frames.Changes frame names m'.frames)
      fun _ m' => m.frames.Changes frame names m'.frames) :
    Binds frame names (get >>= k) :=
  fun m => rest m

/-- Reading a variable at its distance looks at the frames only. -/
theorem binds_getAt (f : FrameId) (distance : Int) (name : String) :
    Binds frame names (getAt f distance name) :=
  binds_get fun m => binds_orFault _ m

theorem binds_lookUp (f : FrameId) (name : Token) (hops : Option Nat) :
    Binds frame names (lookUp f name hops) := by
  cases hops with
  | some hops => exact binds_getAt f hops name.lexeme
  | none => exact binds_get fun m => binds_orFail _ _ m

/-- What is found at a distance is held by the frame it is found in.  The walk has gone that far,
and the frame it has come to has the name. -/
theorem local?_of_holderAt {s : Frames Value} {f g : FrameId} {distance : Int} {name : String}
    {value : Value} (found : s.holderAt f distance name = .ok (g, value)) :
    s.local? g name = some value := by
  unfold Frames.holderAt at found
  cases reached : s.ancestor f distance with
  | error fault =>
    rw [reached] at found
    cases found
  | ok h =>
    rw [reached] at found
    cases held : s.local? h name with
    | none => simp [held, Bind.bind, Except.bind, throw, throwThe, MonadExceptOf.throw] at found
    | some old =>
      simp only [held, Bind.bind, Except.bind, Pure.pure, Except.pure, Except.ok.injEq,
        Prod.mk.injEq] at found
      rw [← found.1, ← found.2, held]

/-- What is found by name is held by the frame it is found in. -/
theorem isSome_of_holder? {s : Frames Value} {f g : FrameId} {name : String}
    (found : s.holder? f name = some g) : (s.local? g name).isSome = true := by
  have holds := List.find?_some found
  exact holds

/-- An assignment at a distance does not introduce its name: the frame there holds the name already,
or the assignment is a fault. -/
theorem binds_assignAt (f : FrameId) (distance : Int) (name : String) (value : Value) :
    Binds frame names (assignAt f distance name value) := by
  refine binds_get fun m => ?_
  cases found : m.frames.holderAt f distance name with
  | error fault => exact .refl frame names m.frames
  | ok holder => exact .redefine (Option.isSome_of_eq_some (local?_of_holderAt found)) value

/-- An assignment by name does not introduce it either, since it looks for a frame that holds it. -/
theorem binds_assign (f : FrameId) (name : Token) (value : Value) :
    Binds frame names (assign f name value) := by
  refine binds_get fun m => ?_
  cases found : m.frames.holder? f name.lexeme with
  | none => exact .refl frame names m.frames
  | some holder => exact .redefine (isSome_of_holder? found) value

/-- So no assignment introduces a name, resolved or not. -/
theorem binds_store (f : FrameId) (name : Token) (value : Value) (hops : Option Nat) :
    Binds frame names (store f name value hops) := by
  cases hops with
  | some hops => exact binds_assignAt f hops name.lexeme value
  | none => exact binds_assign Machine.globals name value

/-- What happens in a new frame does not concern the frames there were. -/
theorem binds_inside {α : Type} {enclosing : FrameId} (more : List String) {k : FrameId → Eval α}
    (rest : ∀ inner, Binds inner more (k inner)) :
    Binds frame names (newFrame enclosing >>= k) := by
  intro m
  have made : m.frames.Changes frame names (m.frames.make (some enclosing)) := .make _
  refine Ensures.mono (rest m.frames.size _) ?_ ?_
  · exact fun _ _ changes => made.inside (Nat.le_refl _) changes
  · exact fun _ _ changes => made.inside (Nat.le_refl _) changes

/-- The receiver of a method is bound in a frame made for it, which was not there before. -/
theorem binds_bindThis (c : Closure) (receiver : Value) :
    Binds frame names (bindThis c receiver) :=
  binds_inside ["this"] fun _ => (binds_define (List.mem_singleton_self "this") receiver).bind fun _ =>
    binds_newClosure _ _ _

/-- A property is a field or a method that is bound on the spot, in a frame of its own. -/
theorem binds_getProperty (i : Instance) (name : Token) :
    Binds frame names (getProperty i name) := by
  refine binds_get fun m => ?_
  cases (m.fieldsOf i).get? name.lexeme with
  | some value => exact .refl frame names m.frames
  | none =>
    cases i.ofClass.findMethod? name.lexeme with
    | some method => exact ((binds_bindThis method (.object i)).bind fun _ => .pure _) m
    | none => exact .refl frame names m.frames

theorem binds_propertyOf (object : Value) (name : Token) :
    Binds frame names (propertyOf object name) := by
  cases object with
  | object i => exact binds_getProperty i name
  | _ => exact .throw _

/-- Through `super` a method is bound likewise, once the two keywords were looked up.  Lookups bind
nothing. -/
theorem binds_superMethod (f : FrameId) (method : Token) (hops : Option Nat) :
    Binds frame names (superMethod f method hops) := by
  cases hops with
  | none => exact .throw _
  | some hops =>
    refine (binds_getAt _ _ _).bind fun parent => (binds_getAt _ _ _).bind fun receiver => ?_
    cases parent with
    | cls c =>
      dsimp only
      split
      · exact (binds_bindThis _ _).bind fun _ => .pure _
      · exact .throw _
    | _ => exact .throw _

/-- Parameters are introduced in the frame that was made for the call. -/
theorem binds_bindParams : ∀ (params : List Token) (arguments : List Value),
    Binds frame (params.map Token.lexeme) (bindParams frame params arguments)
  | [], _ => .pure _
  | _ :: _, [] => .pure _
  | param :: params, argument :: arguments => by
    refine (binds_define (by simp) argument).bind fun _ => ?_
    exact (binds_bindParams params arguments).weaken fun _ mem => List.mem_cons_of_mem _ mem

/-- The outcome of a call may be read from a frame and is never written to one.  Behind a jump that
leaves the body there is no outcome, and a fault instead. -/
theorem binds_outcomeOf (c : Closure) (completion : Completion) :
    Binds frame names (outcomeOf c completion) := by
  unfold outcomeOf
  split
  · exact binds_getAt _ _ _
  · cases completion with
    | normal => exact .pure _
    | returned value => exact .pure _
    | broke => exact .throw _
    | continued => exact .throw _

theorem binds_requireClass (name : Token) (value : Value) :
    Binds frame names (requireClass name value) := by
  cases value with
  | cls c => exact .pure c
  | _ => exact .throw _

/-- Methods are kept in the class and not in a frame. -/
theorem binds_makeMethods (f : FrameId) : ∀ (decls : List FunDecl) (methods : Bindings Closure),
    Binds frame names (makeMethods f decls methods)
  | [], _ => .pure _
  | _ :: rest, _ => (binds_newClosure _ _ _).bind fun _ => binds_makeMethods f rest _

/-- What runs in the frame for the methods of a class binds nothing in the frames there were.
Without a superclass this is the frame of the declaration itself, and nothing is bound at all. -/
theorem binds_methodFrame {α : Type} (f : FrameId) (superclass : Option Class)
    {k : FrameId → Eval α} (rest : ∀ g inner more, Binds inner more (k g)) :
    Binds frame names (methodFrame f superclass >>= k) := by
  cases superclass with
  | none => exact rest f frame names
  | some parent =>
    -- `super` is bound in a new frame, and what runs next runs in that one
    have inside : Binds frame names (newFrame f >>= fun inner =>
        define inner "super" (.cls parent) >>= fun _ => k inner) :=
      binds_inside ["super"] fun inner =>
        (binds_define (List.mem_singleton_self "super") _).bind fun _ => rest inner inner _
    exact inside

/-- A class introduces its own name, where it is declared; `super` goes into a frame that is made
for it. -/
theorem binds_makeClass (name : Token) (superclass : Option Class) (decls : List FunDecl) :
    Binds frame [name.lexeme] (makeClass frame name superclass decls) := by
  refine (binds_define (List.mem_singleton_self _) _).bind fun _ => ?_
  refine binds_methodFrame frame superclass fun g inner more => ?_
  refine (binds_makeMethods g decls _).bind fun methods => ?_
  refine Binds.bind (binds_freshId.bind fun _ => .pure _) fun made => ?_
  exact (binds_assign frame name _).bind fun _ => binds_note _

end Operations

/-! ### Sequences, loops and calls -/

section Parts

variable {frame : FrameId} {names : List String}

/-- Statements in order introduce what each of them does; the induction is on the list, with the
names of all of them allowed throughout. -/
theorem binds_inOrder {run : Stmt → Eval Completion} : ∀ {statements : List Stmt},
    (∀ s ∈ statements, Binds frame names (run s)) → Binds frame names (inOrder run statements)
  | [], _ => .pure _
  | s :: rest, each => by
    refine (each s List.mem_cons_self).bind fun completion => ?_
    cases completion with
    | normal => exact binds_inOrder fun s mem => each s (List.mem_cons_of_mem _ mem)
    | _ => exact .pure _

/-- Arguments are expressions, of which none introduces a name. -/
theorem binds_allValues {value : Expr → Eval Value} (each : ∀ e, Binds frame names (value e)) :
    ∀ es : List Expr, Binds frame names (allValues value es) := by
  intro es
  induction es with
  | nil => exact .pure _
  | cons e rest ih => exact (each e).bind fun _ => ih.bind fun _ => .pure _

/-- A loop introduces in all its turns what its body introduces in one.  The induction is on the
turns that are left. -/
theorem binds_repeatWhile {condition : Eval Value} {body : Eval Completion}
    (first : Binds frame names condition) (second : Binds frame names body) :
    ∀ turns : Nat, Binds frame names (repeatWhile condition body turns)
  | 0 => .throw _
  | turns + 1 => by
    refine first.bind fun value => ?_
    split
    · refine second.bind fun completion => ?_
      cases completion with
      | normal | continued => exact binds_repeatWhile first second turns
      | broke | returned => exact .pure _
    · exact .pure _

/-- Stack overflow may be caught half way.  The names that were bound until then are those that the
body is allowed to bind. -/
theorem binds_catchOverflow {body : Eval Value} (line : Int) (inner : Binds frame names body) :
    Binds frame names (catchOverflow line body) := by
  intro m
  refine (inner m).tryCatch fun abort m' _ changes => ?_
  cases abort <;> exact changes

/-- Around an invocation a call only checks, notes and catches. -/
theorem binds_callWith {invoke : Eval Value} {callee : Value} {arguments : List Value}
    {paren : Token} (inner : Binds frame names invoke) :
    Binds frame names (callWith invoke callee arguments paren) := by
  unfold callWith
  split
  · exact .throw _
  · split
    · exact (binds_note _).bind fun _ => binds_catchOverflow _ inner
    · exact .throw _

end Parts

/-! ### The walks -/

/-- What every function of the evaluator keeps to when it has a given room. -/
structure Keeping (turns room : Nat) : Prop where
  evaluate : ∀ e f frame, Binds frame [] (evaluate turns room e f)
  call : ∀ callee arguments paren frame, Binds frame [] (call turns room callee arguments paren)
  invoke : ∀ callee arguments frame, Binds frame [] (invoke turns room callee arguments)
  runBlock : ∀ ss f, Binds f (Scope.introducedBy ss) (runBlock turns room ss f)
  runLoop : ∀ e s f, Binds f s.introduces (runLoop turns room e s f)
  declareClass : ∀ name superclass methods f,
    Binds f [name.lexeme] (declareClass turns room name superclass methods f)
  execute : ∀ s f, Binds f s.introduces (execute turns room s f)

namespace Keeping

variable {turns room : Nat}

/-- Without room every walk stops at once. -/
theorem zero (turns : Nat) : Keeping turns 0 where
  evaluate _ _ _ := .throw _
  call _ _ _ _ := .throw _
  invoke _ _ _ := .throw _
  runBlock _ _ := .throw _
  runLoop _ _ _ := .throw _
  declareClass _ _ _ _ := .throw _
  execute _ _ := .throw _

/-- One level of evaluation introduces nothing, neither in the frame of the expression nor in
another.  An assignment changes a name that is there, and the frames that calls are given are
new. -/
theorem evaluate_succ (keeping : Keeping turns room) (e : Expr) (f frame : FrameId) :
    Binds frame [] (Execution.evaluate turns (room + 1) e f) := by
  have inner e := keeping.evaluate e f frame
  cases e with
  | literal value => exact .pure _
  | grouping e => exact inner e
  | var name hops => exact binds_lookUp f name hops
  | assign name value hops =>
    exact (inner value).bind fun _ => (binds_store _ _ _ _).bind fun _ => .pure _
  | unary operator right => exact (inner right).bind fun _ => binds_orFailure _ _
  | binary left operator right =>
    exact (inner left).bind fun _ => (inner right).bind fun _ => binds_orFailure _ _
  | logical left operator right =>
    refine (inner left).bind fun value => ?_
    split
    · exact .pure value
    · exact inner right
  | call callee paren arguments =>
    exact (inner callee).bind fun _ => (binds_allValues inner arguments).bind fun _ =>
      keeping.call _ _ _ frame
  | getField object name => exact (inner object).bind fun _ => binds_propertyOf _ _
  | setField object name value =>
    refine (inner object).bind fun target => ?_
    cases target with
    | object i => exact (inner value).bind fun _ => (binds_setProperty _ _ _).bind fun _ => .pure _
    | _ => exact .throw _
  | this keyword hops => exact binds_lookUp f keyword hops
  | super keyword method hops => exact binds_superMethod f method hops
  | misfit what => exact .throw _

/-- One level of invocation: the body runs in a frame of its own, and what is introduced there was
not there before. -/
theorem invoke_succ (keeping : Keeping turns room) (callee : Value) (arguments : List Value)
    (frame : FrameId) : Binds frame [] (Execution.invoke turns (room + 1) callee arguments) := by
  cases callee with
  | closure c =>
    -- parameters and body share the new frame
    refine binds_inside (c.decl.params.map Token.lexeme ++ Scope.introducedBy c.decl.body)
      fun inner => ?_
    have params : Binds inner _ (bindParams inner c.decl.params arguments) := binds_bindParams _ _
    refine Binds.bind (params.weaken fun _ mem => List.mem_append_left _ mem) fun _ => ?_
    have body := keeping.runBlock c.decl.body inner
    exact (body.weaken fun _ mem => List.mem_append_right _ mem).bind fun _ => binds_outcomeOf _ _
  | cls c =>
    refine (binds_newInstance c).bind fun made => ?_
    split
    · exact (binds_bindThis _ _).bind fun _ => (keeping.invoke _ _ _).bind fun _ => .pure _
    · exact .pure _
  | native n =>
    cases n
    exact .modifyGet fun _ => rfl
  | _ => exact .pure _

/-- One level of a class declaration introduces the name of the class. -/
theorem declareClass_succ (keeping : Keeping turns room) (name : Token)
    (superclass : Option Superclass) (methods : List FunDecl) (f : FrameId) :
    Binds f [name.lexeme] (Execution.declareClass turns (room + 1) name superclass methods f) := by
  cases superclass with
  | none => exact binds_makeClass name none methods
  | some parent =>
    refine (keeping.evaluate parent.value f f).calm.bind fun value => ?_
    exact (binds_requireClass _ _).bind fun _ => binds_makeClass name _ methods

/-- One level of execution introduces what the statement does by its form.  A block runs in a frame
of its own, so that what its statements introduce goes there. -/
theorem execute_succ (keeping : Keeping turns room) (s : Stmt) (f : FrameId) :
    Binds f s.introduces (Execution.execute turns (room + 1) s f) := by
  refine (binds_note _).bind fun _ => ?_
  have value e : Binds f s.introduces (Execution.evaluate turns room e f) :=
    (keeping.evaluate e f f).calm
  cases s with
  | expr e => exact (value e).bind fun _ => .pure _
  | print e => exact (value e).bind fun _ => (binds_print _).bind fun _ => .pure _
  | varDecl name initializer =>
    have named : name.lexeme ∈ (Stmt.varDecl name initializer).introduces :=
      List.mem_singleton_self _
    cases initializer with
    | none =>
      exact (binds_define named _).bind fun _ => (binds_note _).bind fun _ => .pure _
    | some e =>
      exact (value e).bind fun _ => (binds_define named _).bind fun _ =>
        (binds_note _).bind fun _ => .pure _
  | block statements => exact binds_inside _ fun inner => keeping.runBlock statements inner
  | ifElse condition thenBranch elseBranch =>
    refine (value condition).bind fun truth => ?_
    cases elseBranch with
    | none =>
      dsimp only
      split
      · exact keeping.execute thenBranch f
      · exact .pure _
    | some elseBranch =>
      dsimp only
      split
      · exact (keeping.execute thenBranch f).weaken fun _ mem => List.mem_append_left _ mem
      · exact (keeping.execute elseBranch f).weaken fun _ mem => List.mem_append_right _ mem
  | loop condition body => exact keeping.runLoop condition body f
  | funDecl decl =>
    have named : decl.name.lexeme ∈ (Stmt.funDecl decl).introduces := List.mem_singleton_self _
    exact (binds_newClosure _ _ _).bind fun _ => (binds_define named _).bind fun _ =>
      (binds_note _).bind fun _ => .pure _
  | classDecl name superclass methods =>
    exact (keeping.declareClass name superclass methods f).bind fun _ => .pure _
  | ret keyword e =>
    cases e with
    | none => exact .pure _
    | some e => exact (value e).bind fun _ => .pure _
  | brk keyword => exact .pure _
  | cont keyword => exact .pure _
  | bare e => exact .throw _
  | misfit what => exact .throw _

/-- One level more, for all walks at once.  They call each other with less room, so none of them
could be treated alone. -/
theorem succ (keeping : Keeping turns room) : Keeping turns (room + 1) where
  evaluate := keeping.evaluate_succ
  call _ _ _ _ := binds_callWith (keeping.invoke _ _ _)
  invoke := keeping.invoke_succ
  runBlock ss f := by
    refine binds_inOrder fun s mem => (keeping.execute s f).weaken fun name named => ?_
    exact List.mem_flatMap.mpr ⟨s, mem, named⟩
  runLoop e s f := binds_repeatWhile (keeping.evaluate e f f).calm (keeping.execute s f) turns
  declareClass := keeping.declareClass_succ
  execute := keeping.execute_succ

/-- All of the evaluator keeps to it, with any room. -/
theorem all (turns : Nat) : ∀ room, Keeping turns room
  | 0 => zero turns
  | room + 1 => (all turns room).succ

end Keeping

/-! ### What follows for a run that returned -/

section Returned

variable {turns room : Nat} {f frame : FrameId} {m m' : Machine}

/-- The judgement read off a run that returned. -/
theorem Binds.of_ok {α : Type} {names : List String} {x : Eval α} {a : α}
    (binds : Binds frame names x) (ran : x.run m = .ok a m') :
    m.frames.Changes frame names m'.frames :=
  (binds m).of_ok ran

/-- Evaluating an expression adds no name to a frame. -/
theorem changes_evaluate {e : Expr} {v : Value}
    (ran : (evaluate turns room e f).run m = .ok v m') : m.frames.Changes frame [] m'.frames :=
  ((Keeping.all turns room).evaluate e f frame).of_ok ran

/-- Arguments that were evaluated have changed no frame's names. -/
theorem changes_allValues {es : List Expr} {vs : List Value}
    (ran : (allValues (fun e => evaluate turns room e f) es).run m = .ok vs m') :
    m.frames.Changes frame [] m'.frames :=
  (binds_allValues (fun e => (Keeping.all turns room).evaluate e f frame) es).of_ok ran

/-- Executing a statement adds at most the names it introduces, to the frame it runs in. -/
theorem changes_execute {s : Stmt} {completion : Completion}
    (ran : (execute turns room s f).run m = .ok completion m') :
    m.frames.Changes f s.introduces m'.frames :=
  ((Keeping.all turns room).execute s f).of_ok ran

/-- A name that was bound in a frame stays bound, whatever happens next. -/
theorem holds_after_define {α : Type} {name : String} {value : Value} {u : Unit} {a : α}
    {names : List String} {m₁ : Machine} {rest : Eval α}
    (defined : (define f name value).run m = .ok u m₁) (there : f < m.frames.size)
    (keeps : Binds frame names rest)
    (ran : rest.run m₁ = .ok a m') : (m'.frames.local? f name).isSome = true := by
  cases defined
  refine (keeps.of_ok ran).keeps f name ?_
  exact Frames.isSome_local?_define.mpr (.inr ⟨rfl, rfl, there⟩)

/-- The name of a class is held where the class is declared, once it is made. -/
theorem holds_makeClass {name : Token} {superclass : Option Class} {decls : List FunDecl} {u : Unit}
    (there : f < m.frames.size) (ran : (makeClass f name superclass decls).run m = .ok u m') :
    (m'.frames.local? f name.lexeme).isSome = true := by
  obtain ⟨_, _, defined, rest⟩ := run_bind_ok.mp ran
  refine holds_after_define defined there (binds_methodFrame f superclass ?_ : Binds f [] _) rest
  intro g inner more
  refine (binds_makeMethods g decls _).bind fun methods => ?_
  refine Binds.bind (binds_freshId.bind fun _ => .pure _) fun made => ?_
  exact (binds_assign f name _).bind fun _ => binds_note _

/-- So it is when its superclass had to be evaluated first, which takes no frame away, and so the
frame of the declaration is there still. -/
theorem holds_declareClass {name : Token} {superclass : Option Superclass}
    {methods : List FunDecl} {u : Unit}
    (ran : (declareClass turns room name superclass methods f).run m = .ok u m')
    (there : f < m.frames.size) :
    (m'.frames.local? f name.lexeme).isSome = true := by
  cases room with
  | zero => exact absurd ran run_throw_ok
  | succ room =>
    cases superclass with
    | none => exact holds_makeClass there ran
    | some parent =>
      obtain ⟨value, m₁, evaluated, rest⟩ := run_bind_ok.mp ran
      obtain ⟨parent, m₂, required, made⟩ := run_bind_ok.mp rest
      have first : m.frames.Changes f [] m₁.frames := changes_evaluate evaluated
      have second : m₁.frames.Changes f [] m₂.frames := (binds_requireClass _ _).of_ok required
      exact holds_makeClass (Nat.lt_of_lt_of_le there (first.trans second).size) made

/-- A declaration that completes has bound its name in the frame it ran in.  What comes after the
binding is at most a note, and the binding of a class comes before its methods, which keep it. -/
theorem holds_execute {s : Stmt} {completion : Completion} (declares : s.isDeclaration = true)
    (there : f < m.frames.size) (ran : (execute turns room s f).run m = .ok completion m') :
    ∀ name ∈ s.introduces, (m'.frames.local? f name).isSome = true := by
  cases room with
  | zero => exact absurd ran run_throw_ok
  | succ room =>
    obtain ⟨_, m₁, noted, ran⟩ := run_bind_ok.mp ran
    cases noted
    -- the name is bound last or followed by what keeps it
    cases s with
    | varDecl name initializer =>
      intro other mem
      rw [List.mem_singleton.mp mem]
      cases initializer with
      | none =>
        obtain ⟨_, _, defined, rest⟩ := run_bind_ok.mp ran
        obtain ⟨_, _, noted, rest⟩ := run_bind_ok.mp rest
        cases rest
        exact holds_after_define defined there (binds_note _ : Binds f [] _) noted
      | some e =>
        obtain ⟨value, m₂, evaluated, rest⟩ := run_bind_ok.mp ran
        obtain ⟨_, _, defined, rest⟩ := run_bind_ok.mp rest
        obtain ⟨_, _, noted, rest⟩ := run_bind_ok.mp rest
        cases rest
        have calm : Frames.Changes f [] _ m₂.frames := changes_evaluate evaluated
        exact holds_after_define defined (Nat.lt_of_lt_of_le there calm.size)
          (binds_note _ : Binds f [] _) noted
    | funDecl decl =>
      intro other mem
      rw [List.mem_singleton.mp mem]
      obtain ⟨c, m₂, made, rest⟩ := run_bind_ok.mp ran
      cases made
      obtain ⟨_, _, defined, rest⟩ := run_bind_ok.mp rest
      obtain ⟨_, _, noted, rest⟩ := run_bind_ok.mp rest
      cases rest
      exact holds_after_define defined there (binds_note _ : Binds f [] _) noted
    | classDecl name superclass methods =>
      intro other mem
      rw [List.mem_singleton.mp mem]
      obtain ⟨_, m₂, declared, rest⟩ := run_bind_ok.mp ran
      cases rest
      exact holds_declareClass declared there
    | _ => cases declares

/-- Parameters are bound if there are as many arguments, each in its turn; those behind it bind
further names and take none away. -/
theorem holds_bindParams : ∀ {params : List Token} {arguments : List Value} {m m' : Machine}
    {u : Unit}, params.length = arguments.length → f < m.frames.size →
      (bindParams f params arguments).run m = .ok u m' →
      ∀ name ∈ params.map Token.lexeme, (m'.frames.local? f name).isSome = true
  | [], _, _, _, _, _, _, _, _, mem => absurd mem List.not_mem_nil
  | param :: params, argument :: arguments, m, m', _, same, there, ran, name, mem => by
    obtain ⟨_, m₁, defined, rest⟩ := run_bind_ok.mp ran
    rcases List.mem_cons.mp mem with rfl | mem
    · exact holds_after_define defined there (binds_bindParams params arguments) rest
    · cases defined
      exact holds_bindParams (Nat.succ.inj same) (by simpa using there) rest name mem

end Returned

end Execution
end Arbor
