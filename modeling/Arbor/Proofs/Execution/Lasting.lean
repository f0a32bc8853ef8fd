import Arbor.Proofs.Execution.Names
import Arbor.Proofs.Scope.Orderly

/-!
# Keywords in frames

Names of programs are never keywords.  So once a frame holds `this` or `super`, or has been made
without it, nothing that is done to the machine changes that: new frames are made, names are bound
and values are changed, but not under the keywords in the frames there are.

This is said of the machine that a computation leaves behind, however it ends.

## Main definitions

* `Lasts`: keywords mean in one machine what they meant in another.
* `Holds`: what a frame holds under the keywords.
* `left`, `Keeps`: the machine that a computation leaves behind, in which keywords last.

## Main statements

* `keeps_store`, `keeps_bindThis`, `keeps_makeClass` and the others: the operations of the machine.
-/

namespace Arbor

/-! ### Frames that are made for one name -/

namespace Frames

variable {α : Type} (s : Frames α) (enclosing : Option FrameId)

/-- A frame that is yet to be made holds nothing. -/
theorem local?_size (name : String) : s.local? s.size name = none := by
  have beyond : s.cells[s.cells.size]? = none := Array.getElem?_eq_none (Nat.le_refl _)
  unfold local? size
  rw [beyond]
  rfl

/-- A frame made for one name holds it. -/
theorem local?_made_self (name : String) (v : α) :
    ((s.make enclosing).define s.size name v).local? s.size name = some v :=
  local?_define_self _ (by simp) name v

/-- A new frame holds nothing but the name that is bound in it. -/
theorem local?_made_of_ne {name other : String} (ne : other ≠ name) (v : α) :
    ((s.make enclosing).define s.size name v).local? s.size other = none := by
  rw [local?_define_of_ne _ (.inr ne), local?_make, local?_size]

end Frames

namespace Execution

open Eval Stateful Scope

/-! ### Machines -/

/-- The frames of the old machine hold under the keywords what they hold in the new one, and there
are at least as many frames and instances. -/
structure Lasts (old new : Machine) : Prop where
  frames : old.frames.size ≤ new.frames.size
  fields : old.fields.size ≤ new.fields.size
  same : ∀ g < old.frames.size, ∀ name, ¬ Plain name →
    new.frames.local? g name = old.frames.local? g name

namespace Lasts

variable {a b c : Machine}

/-- Keywords mean what they mean. -/
theorem refl (m : Machine) : Lasts m m :=
  ⟨Nat.le_refl _, Nat.le_refl _, fun _ _ _ _ => rfl⟩

/-- What lasted to one machine and from there on has lasted throughout, since there are no fewer
frames in between. -/
theorem trans (first : Lasts a b) (second : Lasts b c) : Lasts a c := by
  refine ⟨Nat.le_trans first.frames second.frames, Nat.le_trans first.fields second.fields, ?_⟩
  intro g there name keyword
  rw [second.same g (Nat.lt_of_lt_of_le there first.frames) name keyword,
    first.same g there name keyword]

/-- Instances may be added and their fields changed. -/
theorem of_frames (frames : b.frames = a.frames) (fields : a.fields.size ≤ b.fields.size) :
    Lasts a b := by
  refine ⟨Nat.le_of_eq (congrArg Frames.size frames).symm, fields, fun g _ name _ => ?_⟩
  rw [frames]

/-- Making a frame changes none of those there were. -/
theorem make (enclosing : Option FrameId) :
    Lasts a { a with frames := a.frames.make enclosing } := by
  refine ⟨?_, Nat.le_refl _, fun g _ name _ => Frames.local?_make a.frames enclosing g name⟩
  exact Nat.le_of_lt (by simp)

/-- A name is bound that is no keyword, or in a frame that was made since. -/
theorem define (lasts : Lasts a b) (g : FrameId) (name : String) (v : Value)
    (apart : Plain name ∨ a.frames.size ≤ g) :
    Lasts a { b with frames := b.frames.define g name v } := by
  refine ⟨by simpa using lasts.frames, lasts.fields, fun g' there other keyword => ?_⟩
  rw [← lasts.same g' there other keyword]
  refine Frames.local?_define_of_ne b.frames ?_ v
  rcases apart with plain | new
  · exact .inr fun same => keyword (same ▸ plain)
  · exact .inl (Nat.ne_of_lt (Nat.lt_of_lt_of_le there new))

/-- A frame is made for one name. -/
theorem made (enclosing : Option FrameId) (name : String) (v : Value) :
    Lasts a { a with frames := (a.frames.make enclosing).define a.frames.size name v } :=
  (make enclosing).define a.frames.size name v (.inr (Nat.le_refl _))

end Lasts

/-- What a frame holds under the keywords. -/
structure Holds (frames : Frames Value) (g : FrameId) (this super : Option Value) : Prop where
  there : g < frames.size
  this : frames.local? g "this" = this
  super : frames.local? g "super" = super

/-- What a frame holds under the keywords it still holds later. -/
theorem Holds.lasts {m m' : Machine} {g : FrameId} {this super : Option Value}
    (holds : Holds m.frames g this super) (lasts : Lasts m m') :
    Holds m'.frames g this super := by
  refine ⟨Nat.lt_of_lt_of_le holds.there lasts.frames, ?_, ?_⟩
  · rw [lasts.same g holds.there _ not_plain_this, holds.this]
  · rw [lasts.same g holds.there _ not_plain_super, holds.super]

/-! ### What computations leave behind -/

/-- The machine that a computation leaves behind, however it ends. -/
def left {α : Type} (x : Eval α) (m : Machine) : Machine :=
  match x.run m with
  | .ok _ m' => m'
  | .error _ m' => m'

/-- What keywords mean lasts through a computation. -/
def Keeps {α : Type} (x : Eval α) (m : Machine) : Prop :=
  Lasts m (left x m)

section Left

variable {α β : Type} {x : Eval α} {k : α → Eval β} {m m' : Machine} {a : α}

/-- A computation that returned has left the machine it returned with. -/
theorem left_of_ok (ran : x.run m = .ok a m') : left x m = m' := by
  unfold left
  rw [ran]

/-- One that stopped has left the machine it stopped with; nothing is taken back. -/
theorem left_of_error {abort : Abort} (ran : x.run m = .error abort m') : left x m = m' := by
  unfold left
  rw [ran]

/-- What is left behind depends on the run only. -/
theorem left_congr {y : Eval α} (same : x.run m = y.run m') : left x m = left y m' := by
  unfold left
  rw [same]

/-- Two computations leave behind what the second one does, if the first one returned. -/
theorem left_bind_of_ok (ran : x.run m = .ok a m') : left (x >>= k) m = left (k a) m' := by
  unfold left
  rw [EStateM.run_bind, ran]

/-- Otherwise they leave behind what the first one did. -/
theorem left_bind_of_error {abort : Abort} (ran : x.run m = .error abort m') :
    left (x >>= k) m = m' := by
  unfold left
  rw [EStateM.run_bind, ran]

/-- What the first part leaves behind lasts through the others. -/
theorem lasts_left_bind (rest : ∀ a m', x.run m = .ok a m' → Keeps (k a) m') :
    Lasts (left x m) (left (x >>= k) m) := by
  cases ran : x.run m with
  | ok a m' =>
    rw [left_of_ok ran, left_bind_of_ok ran]
    exact rest a m' ran
  | error abort m' =>
    rw [left_of_error ran, left_bind_of_error ran]
    exact .refl m'

namespace Keeps

/-- Keywords last through one computation after the other.  The second one is only asked about at
the machines that the first one may return with. -/
theorem bind (first : Keeps x m) (rest : ∀ a m', x.run m = .ok a m' → Keeps (k a) m') :
    Keeps (x >>= k) m :=
  first.trans (lasts_left_bind rest)

/-- A result changes nothing. -/
theorem pure (a : α) : Keeps (Pure.pure a) m :=
  .refl m

/-- Stopping changes nothing by itself. -/
theorem throw (abort : Abort) : Keeps (MonadExcept.throw abort : Eval α) m :=
  .refl m

/-- The judgement read off a run that returned. -/
theorem of_ok (keeps : Keeps x m) (ran : x.run m = .ok a m') : Lasts m m' := by
  unfold Keeps at keeps
  rwa [left_of_ok ran] at keeps

end Keeps

end Left

/-! ### The operations of the machine -/

section Operations

variable {m : Machine}

/-- The trace holds no frames. -/
theorem keeps_note (event : Event) : Keeps (note event) m :=
  .of_frames rfl (Nat.le_refl _)

theorem keeps_print (value : Value) : Keeps (print value) m :=
  .of_frames rfl (Nat.le_refl _)

/-- A new instance is told by its number, and the number of instances only grows. -/
theorem keeps_newInstance (c : Class) : Keeps (newInstance c) m :=
  .of_frames rfl (by
    change m.fields.size ≤ (m.fields.push {}).size
    rw [Array.size_push]
    exact Nat.le_succ _)

/-- A field may be set under any name, keywords included: it is not held by a frame. -/
theorem keeps_setProperty (i : Instance) (name : String) (value : Value) :
    Keeps (setProperty i name value) m :=
  .of_frames rfl (by
    change m.fields.size ≤ (m.fields.modify i.id fun fields => fields.put name value).size
    exact Nat.le_of_eq Array.size_modify.symm)

/-- A new frame is behind all those there were. -/
theorem keeps_newFrame (enclosing : FrameId) : Keeps (newFrame enclosing) m :=
  .make (some enclosing)

theorem keeps_newClosure (decl : FunDecl) (f : FrameId) (isInitializer : Bool) :
    Keeps (newClosure decl f isInitializer) m :=
  .of_frames rfl (Nat.le_refl _)

/-- Binding a name that is not a keyword leaves the keywords of every frame. -/
theorem keeps_define {name : String} (plain : Plain name) (f : FrameId) (value : Value) :
    Keeps (define f name value) m :=
  (Lasts.refl m).define f name value (.inl plain)

/-- An operation that can only meet a fault has looked at the machine and not changed it. -/
theorem keeps_orFault {α : Type} (result : Except Fault α) : Keeps (orFault result) m := by
  cases result with
  | ok value => exact .pure value
  | error fault => exact .throw _

/-- Neither has one that can fail in the program. -/
theorem keeps_orFail {α : Type} (line : Int) (result : Except RuntimeCause α) :
    Keeps (orFail line result) m := by
  cases result with
  | ok value => exact .pure value
  | error cause => exact .throw _

theorem keeps_orFailure (operator : Token) (result : Except Operator.Failure Value) :
    Keeps (orFailure operator result) m := by
  rcases result with failure | value
  · cases failure <;> exact .throw _
  · exact .pure value

/-- Reading at a distance changes nothing, keywords and plain names alike. -/
theorem keeps_getAt (f : FrameId) (distance : Int) (name : String) :
    Keeps (getAt f distance name) m :=
  keeps_orFault (m.frames.getAt f distance name)

theorem keeps_lookUp (f : FrameId) (name : Token) (hops : Option Nat) :
    Keeps (lookUp f name hops) m := by
  cases hops with
  | some hops => exact keeps_getAt f hops name.lexeme
  | none => exact keeps_orFail name.line (m.frames.get Machine.globals name.lexeme)

/-- Looking at the machine leaves it as it is, so only what follows can change it. -/
theorem keeps_get {α : Type} {k : Machine → Eval α} (rest : Keeps (k m) m) : Keeps (get >>= k) m :=
  rest

/-- An assignment by name changes a value under that name, wherever it is held. -/
theorem keeps_assign (f : FrameId) {name : Token} (plain : Plain name.lexeme) (value : Value) :
    Keeps (assign f name value) m := by
  refine keeps_get ?_
  cases m.frames.holder? f name.lexeme with
  | some holder => exact keeps_define plain holder value
  | none => exact .throw _

/-- No assignment in a program can be to a keyword, so keywords last through all of them. -/
theorem keeps_store (f : FrameId) {name : Token} (plain : Plain name.lexeme) (value : Value)
    (hops : Option Nat) : Keeps (store f name value hops) m := by
  cases hops with
  | none => exact keeps_assign Machine.globals plain value
  | some hops =>
    change Keeps (orFault (m.frames.holderAt f hops name.lexeme) >>= fun holder =>
      define holder.1 name.lexeme value) m
    exact (keeps_orFault _).bind fun holder _ _ => keeps_define plain holder.1 value

/-- The function that a method becomes when it is bound to a value. -/
def bound (method : Closure) (m : Machine) : Closure :=
  ⟨m.made, method.decl, m.frames.size, method.isInitializer⟩

/-- The machine in which a method has been bound to a value. -/
def boundTo (c : Closure) (receiver : Value) (m : Machine) : Machine :=
  { m with
    frames := (m.frames.make (some c.frame)).define m.frames.size "this" receiver
    made := m.made + 1 }

/-- Binding a method never fails, and what it makes is known exactly: the closure, and the machine
with the new frame. -/
theorem run_bindThis (c : Closure) (receiver : Value) (m : Machine) :
    (bindThis c receiver).run m = .ok (bound c m) (boundTo c receiver m) :=
  rfl

/-- The frame that was made holds the receiver, and no superclass: that one is found further out. -/
theorem holds_boundTo (c : Closure) (receiver : Value) :
    Holds (boundTo c receiver m).frames m.frames.size (some receiver) none := by
  refine ⟨?_, Frames.local?_made_self _ _ _ _, Frames.local?_made_of_ne _ _ (by decide) _⟩
  change m.frames.size < Frames.size (Frames.define _ _ _ _)
  simp

/-- The receiver is bound in a frame that was not there before, so `this` still means elsewhere what
it meant. -/
theorem keeps_bindThis (c : Closure) (receiver : Value) : Keeps (bindThis c receiver) m := by
  have made := Lasts.made (a := m) (some c.frame) "this" receiver
  exact made.trans (.of_frames rfl (Nat.le_refl _))

/-- A property may be a method, which is bound in a frame of its own. -/
theorem keeps_getProperty (i : Instance) (name : Token) : Keeps (getProperty i name) m := by
  refine keeps_get ?_
  cases (m.fieldsOf i).get? name.lexeme with
  | some value => exact .pure value
  | none =>
    cases i.ofClass.findMethod? name.lexeme with
    | some method => exact (keeps_bindThis method (.object i)).bind fun _ _ _ => .pure _
    | none => exact .throw _

theorem keeps_propertyOf (object : Value) (name : Token) : Keeps (propertyOf object name) m := by
  cases object with
  | object i => exact keeps_getProperty i name
  | _ => exact .throw _

/-- So may a method of the superclass; the two lookups before that change nothing.  If what is found
is not a class, there is a fault, and everything is kept as well. -/
theorem keeps_superMethod (f : FrameId) (method : Token) (hops : Option Nat) :
    Keeps (superMethod f method hops) m := by
  cases hops with
  | none => exact .throw _
  | some hops =>
    refine (keeps_getAt _ _ _).bind fun parent _ _ => (keeps_getAt _ _ _).bind fun _ _ _ => ?_
    cases parent with
    | cls c =>
      dsimp only
      split
      · exact (keeps_bindThis _ _).bind fun _ _ _ => .pure _
      · exact .throw _
    | _ => exact .throw _

/-- Parameters are not keywords, and the induction on them goes from one machine to the next. -/
theorem keeps_bindParams (f : FrameId) : ∀ {params : List Token}, (∀ param ∈ params,
    Plain param.lexeme) → ∀ (arguments : List Value) (m : Machine),
      Keeps (bindParams f params arguments) m
  | [], _, _, _ => .pure ()
  | _ :: _, _, [], _ => .pure ()
  | param :: params, plain, argument :: arguments, m => by
    refine (keeps_define (plain param List.mem_cons_self) f argument).bind fun _ m₁ _ => ?_
    exact keeps_bindParams f (fun other mem => plain other (List.mem_cons_of_mem _ mem)) arguments m₁

/-- The outcome of a call is at most looked up. -/
theorem keeps_outcomeOf (c : Closure) (completion : Completion) :
    Keeps (outcomeOf c completion) m := by
  unfold outcomeOf
  split
  · exact keeps_getAt _ _ _
  · cases completion with
    | normal | returned => exact .pure _
    | broke | continued => exact .throw _

theorem keeps_requireClass (name : Token) (value : Value) : Keeps (requireClass name value) m := by
  cases value with
  | cls c => exact .pure c
  | _ => exact .throw _

/-- Methods take numbers, and no frames. -/
theorem keeps_makeMethods (f : FrameId) : ∀ (decls : List FunDecl) (methods : Bindings Closure)
    (m : Machine), Keeps (makeMethods f decls methods) m
  | [], _, _ => .pure _
  | _ :: rest, _, _ => (keeps_newClosure _ _ _).bind fun _ m₁ _ => keeps_makeMethods f rest _ m₁

/-- The frame for `super` is made for it, so no frame there was gets another superclass. -/
theorem keeps_methodFrame (f : FrameId) (superclass : Option Class) :
    Keeps (methodFrame f superclass) m := by
  cases superclass with
  | none => exact .pure f
  | some parent => exact .made (some f) "super" (.cls parent)

/-- What is left to do for a class when the frame of its methods is there. -/
def finishClass (f : FrameId) (name : Token) (superclass : Option Class) (decls : List FunDecl)
    (inner : FrameId) : Eval Unit := do
  let methods ← makeMethods inner decls {}
  let made ← newClass name.lexeme superclass methods
  assign f name (.cls made)
  note (.definedClass name.lexeme (superclass.map Class.name) methods.entries.length)

/-- What is left to do once that frame is there: methods, the class, and its name, which is not a
keyword. -/
theorem keeps_finishClass (f : FrameId) {name : Token} (plain : Plain name.lexeme)
    (superclass : Option Class) (decls : List FunDecl) (inner : FrameId) :
    Keeps (finishClass f name superclass decls inner) m := by
  refine (keeps_makeMethods inner decls {} m).bind fun methods m₁ _ => ?_
  have made : Keeps (newClass name.lexeme superclass methods) m₁ := .of_frames rfl (Nat.le_refl _)
  exact made.bind fun c _ _ => (keeps_assign f plain (.cls c)).bind fun _ _ _ => keeps_note _

/-- Declaring a class keeps the keywords of all frames there were. -/
theorem keeps_makeClass (f : FrameId) {name : Token} (plain : Plain name.lexeme)
    (superclass : Option Class) (decls : List FunDecl) :
    Keeps (makeClass f name superclass decls) m := by
  refine (keeps_define plain f .nil).bind fun _ m₁ _ => ?_
  exact (keeps_methodFrame f superclass).bind fun inner _ _ =>
    keeps_finishClass f plain superclass decls inner

end Operations

end Execution
end Arbor
