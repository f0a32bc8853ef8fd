import Arbor.Proofs.Execution.Sane
import Arbor.Proofs.Frames.Chain

/-!
# Two ways to a variable

A name is looked up in the nearest frame that holds it, or at a distance that is known.  If the
distance is that of the nearest holder, the two come to the same, for reading and for changing.  A
change concerns one name in one frame; it is seen from every frame whose nearest holder that is, and
nothing else is seen to change from anywhere.

The operations of the machine are these operations on its frames.  One that fails leaves the machine
as it was.

## Main definitions

* `Frames.Built`: the frames that come of making frames, binding names and changing them.
* `Frames.Rebinds`: frames that differ in the value of one name in one frame.

## Main statements

* `Frames.get_define_of_holder`, `Frames.get_define_of_ne`: lookups by name behind a change.
* `Frames.names_and_distances_agree`: the two ways to a variable.
-/

namespace Arbor
namespace Frames

variable {α : Type} {s t : Frames α} {f g h : FrameId} {name other : String} {value : α}

/-- Frames that come of any sequence of operations.  An operation that fails adds nothing. -/
inductive Built : Frames α → Prop
  | empty : Built Frames.empty
  | make {s : Frames α} {enclosing : Option FrameId} (before : Built s)
      (there : ∀ g, enclosing = some g → g < s.size) : Built (s.make enclosing)
  | define {s : Frames α} (f : FrameId) (name : String) (value : α) (before : Built s) :
      Built (s.define f name value)
  | assign {s t : Frames α} {f : FrameId} {name : String} {value : α} (before : Built s)
      (changed : s.assign f name value = .ok t) : Built t
  | assignAt {s t : Frames α} {f : FrameId} {distance : Int} {name : String} {value : α}
      (before : Built s) (changed : s.assignAt f distance name value = .ok t) : Built t

/-! ### Changes -/

theorem exists_define_of_assign (changed : s.assign f name value = .ok t) :
    ∃ g, s.holder? f name = some g ∧ t = s.define g name value := by
  unfold assign at changed
  split at changed
  · next g found =>
    cases changed
    exact ⟨g, found, rfl⟩
  · cases changed

theorem assignAt_eq (s : Frames α) (f : FrameId) (distance : Int) (name : String) (value : α) :
    s.assignAt f distance name value =
      match s.holderAt f distance name with
      | .ok (g, _) => .ok (s.define g name value)
      | .error fault => .error fault := by
  unfold assignAt
  cases s.holderAt f distance name <;> rfl

theorem exists_define_of_assignAt {distance : Int}
    (changed : s.assignAt f distance name value = .ok t) :
    ∃ g v, s.holderAt f distance name = .ok (g, v) ∧ t = s.define g name value := by
  rw [assignAt_eq] at changed
  split at changed
  · next g v found =>
    cases changed
    exact ⟨g, v, found, rfl⟩
  · cases changed

/-- Frames are made in order, and nothing else makes links. -/
theorem Built.ordered (built : s.Built) : s.Ordered := by
  induction built with
  | empty => exact .empty
  | make _ there ih => exact ih.make there
  | define f name value _ ih => exact ih.define f name value
  | assign _ changed ih =>
    obtain ⟨g, -, rfl⟩ := exists_define_of_assign changed
    exact ih.define g _ _
  | assignAt _ changed ih =>
    obtain ⟨g, -, -, rfl⟩ := exists_define_of_assignAt changed
    exact ih.define g _ _

/-- The frames `t` are the frames `s` with another value for one name that the frame `g` holds. -/
structure Rebinds (s : Frames α) (g : FrameId) (name : String) (value : α) (t : Frames α) :
    Prop where
  size : t.size = s.size
  links : ∀ h, t.enclosing? h = s.enclosing? h
  elsewhere : ∀ h, h ≠ g → t.bindings h = s.bindings h
  names : t.names g = s.names g
  others : ∀ other, other ≠ name → t.local? g other = s.local? g other
  changed : t.local? g name = some value

theorem bindings_define_of_ne (apart : h ≠ g) (name : String) (value : α) :
    (s.define g name value).bindings h = s.bindings h := by
  have apart' : ¬ g = h := fun same => apart same.symm
  simp [define, bindings, Array.getElem?_modify, apart']

theorem bindings_define_self (there : g < s.size) (name : String) (value : α) :
    (s.define g name value).bindings g = (s.bindings g).put name value := by
  have cell : s.cells[g]? = some s.cells[g] := Array.getElem?_eq_getElem there
  simp [define, bindings, Array.getElem?_modify, cell]

/-- Binding a name again that a frame holds changes its value and nothing else.  Even the order of
the names stays, since the entry keeps its place. -/
theorem rebinds_define (held : (s.local? g name).isSome = true) (value : α) :
    s.Rebinds g name value (s.define g name value) := by
  have there := lt_size_of_local? held
  refine ⟨size_define .., fun h => enclosing?_define .., ?_, ?_, ?_, ?_⟩
  · intro h apart
    exact bindings_define_of_ne apart name value
  · have bound : name ∈ (s.bindings g).names := mem_names.mpr held
    unfold names
    rw [bindings_define_self there, Bindings.names_put, if_pos bound]
  · intro other apart
    exact local?_define_of_ne s (.inr apart) value
  · exact local?_define_self s there name value

/-! ### Lookups behind a change -/

theorem ancestor?_define (s : Frames α) (g : FrameId) (name : String) (value : α) (d : Nat)
    (f : FrameId) : (s.define g name value).ancestor? d f = s.ancestor? d f := by
  induction d generalizing f with
  | zero => rfl
  | succ d ih =>
    rw [ancestor?, ancestor?, enclosing?_define]
    cases s.enclosing? f with
    | none => rfl
    | some outer => exact ih outer

/-- A name that is bound again is held where it was held. -/
theorem isSome_rebound (held : (s.local? g name).isSome = true) (value : α) (h : FrameId)
    (other : String) :
    ((s.define g name value).local? h other).isSome = (s.local? h other).isSome := by
  rw [Bool.eq_iff_iff, isSome_local?_define]
  constructor
  · rintro (holds | ⟨rfl, rfl, -⟩)
    · exact holds
    · exact held
  · exact .inl

theorem outward_define (s : Frames α) (g : FrameId) (name : String) (value : α) (f : FrameId) :
    (s.define g name value).outward f = s.outward f := by
  unfold outward
  generalize f + 1 = turns
  induction turns generalizing f with
  | zero => rfl
  | succ turns ih =>
    rw [walk, walk, enclosing?_define]
    cases s.enclosing? f with
    | none => rfl
    | some outer => simp only [ih]

theorem holder?_define (held : (s.local? g name).isSome = true) (value : α) (h : FrameId)
    (other : String) : (s.define g name value).holder? h other = s.holder? h other := by
  simp only [holder?, outward_define, isSome_rebound held]

/-- From a frame whose nearest holder was changed the new value is found. -/
theorem get_define_of_holder (held : (s.local? g name).isSome = true) (value : α)
    (nearest : s.holder? h name = some g) : (s.define g name value).get h name = .ok value := by
  rw [get_eq_of_holder?, holder?_define held, nearest]
  simp [local?_define_self s (lt_size_of_local? held)]

/-- What is found for another name or in another place is not the place of the name. -/
theorem ne_of_apart {place : Option FrameId} {k : FrameId} (apart : other ≠ name ∨ place ≠ some g)
    (found : place = some k) : k ≠ g ∨ other ≠ name := by
  rcases apart with apart | apart
  · exact .inr apart
  · refine .inl ?_
    rintro rfl
    exact apart found

/-- Any other lookup by name finds what it found. -/
theorem get_define_of_ne (held : (s.local? g name).isSome = true) (value : α)
    (apart : other ≠ name ∨ s.holder? h other ≠ some g) :
    (s.define g name value).get h other = s.get h other := by
  rw [get_eq_of_holder?, get_eq_of_holder?, holder?_define held]
  cases found : s.holder? h other with
  | none => rfl
  | some k =>
    have differ : k ≠ g ∨ other ≠ name := ne_of_apart apart found
    simp [local?_define_of_ne s differ]

/-- Any other lookup at a distance finds what it found. -/
theorem getAt_define_of_ne {distance : Int}
    (apart : other ≠ name ∨ s.ancestor? distance.toNat h ≠ some g) (value : α) :
    (s.define g name value).getAt h distance other = s.getAt h distance other := by
  unfold getAt holderAt ancestor
  rw [ancestor?_define]
  cases reached : s.ancestor? distance.toNat h with
  | none => rfl
  | some k =>
    have differ : k ≠ g ∨ other ≠ name := ne_of_apart apart reached
    simp only [Bind.bind, Except.bind, local?_define_of_ne s differ]

end Frames

/-! ### The operations of the machine -/

namespace Eval

variable {m : Machine} {f : FrameId} {name : Token} {value : Value}

/-- The value of a name in the nearest frame that holds it. -/
def getNearest (frame : FrameId) (name : Token) : Eval Value := do
  orFail name.line ((← get).frames.get frame name.lexeme)

theorem getGlobal_eq (name : Token) : getGlobal name = getNearest Machine.globals name :=
  rfl

theorem run_getNearest :
    (getNearest f name).run m =
      match m.frames.get f name.lexeme with
      | .ok v => .ok v m
      | .error cause => .error (.error ⟨cause, name.line⟩) m := by
  change (orFail name.line (m.frames.get f name.lexeme)).run m = _
  cases m.frames.get f name.lexeme <;> rfl

theorem run_assign :
    (assign f name value).run m =
      match m.frames.assign f name.lexeme value with
      | .ok frames => .ok () { m with frames := frames }
      | .error cause => .error (.error ⟨cause, name.line⟩) m := by
  unfold assign Frames.assign
  rw [EStateM.run_bind, EStateM.run_get]
  dsimp only
  cases m.frames.holder? f name.lexeme <;> rfl

theorem run_getAt (f : FrameId) (distance : Int) (name : String) :
    (getAt f distance name).run m =
      match m.frames.getAt f distance name with
      | .ok v => .ok v m
      | .error fault => .error (.fault fault) m := by
  change (orFault (m.frames.getAt f distance name)).run m = _
  cases m.frames.getAt f distance name <;> rfl

theorem run_assignAt (f : FrameId) (distance : Int) (name : String) (value : Value) :
    (assignAt f distance name value).run m =
      match m.frames.assignAt f distance name value with
      | .ok frames => .ok () { m with frames := frames }
      | .error fault => .error (.fault fault) m := by
  rw [Frames.assignAt_eq]
  change (orFault (m.frames.holderAt f distance name) >>= fun holder =>
    define holder.1 name value).run m = _
  cases m.frames.holderAt f distance name <;> rfl

end Eval

namespace Frames

open Execution

/-- Access by name and access at a distance agree.  At the least distance at which a name is held,
both find the same value, and both change it to the same frames.  These differ from the old ones in
the value of that name in that frame only: the new value is found by name from exactly the frames
whose nearest holder that is, or that found it before, and every other lookup, by name or at a
distance, comes to what it came to.  If the name is held nowhere outward, access by name is an error
of the program.  On a machine every access does this to the frames, and one that fails leaves the
machine as it was. -/
theorem names_and_distances_agree {s : Frames Value} (built : s.Built) (f : FrameId)
    (name : String) (value : Value) :
    (∀ d g, s.Nearest f name d g →
      (∃ v, s.local? g name = some v ∧ s.get f name = .ok v ∧ s.getAt f d name = .ok v) ∧
      ∃ t, s.assign f name value = .ok t ∧ s.assignAt f d name value = .ok t ∧
        s.Rebinds g name value t ∧
        (∀ h, t.get h name = .ok value ↔ (∃ e, s.Nearest h name e g) ∨ s.get h name = .ok value) ∧
        (∀ h other, (other ≠ name ∨ ∀ e, ¬ s.Nearest h other e g) →
          t.get h other = s.get h other) ∧
        ∀ (h : FrameId) (distance : Int) (other : String),
          (other ≠ name ∨ s.ancestor? distance.toNat h ≠ some g) →
          t.getAt h distance other = s.getAt h distance other) ∧
    ((∀ d g, ¬ s.Nearest f name d g) →
      s.get f name = .error (.undefinedVariable name) ∧
      s.assign f name value = .error (.undefinedVariable name)) ∧
    ∀ (m : Machine) (token : Token) (distance : Int), m.frames = s → token.lexeme = name →
      (Eval.getNearest f token).run m =
        (match s.get f name with
        | .ok v => .ok v m
        | .error cause => .error (.error ⟨cause, token.line⟩) m) ∧
      (Eval.assign f token value).run m =
        (match s.assign f name value with
        | .ok t => .ok () { m with frames := t }
        | .error cause => .error (.error ⟨cause, token.line⟩) m) ∧
      (Eval.getAt f distance name).run m =
        (match s.getAt f distance name with
        | .ok v => .ok v m
        | .error fault => .error (.fault fault) m) ∧
      (Eval.assignAt f distance name value).run m =
        (match s.assignAt f distance name value with
        | .ok t => .ok () { m with frames := t }
        | .error fault => .error (.fault fault) m) := by
  have ordered := built.ordered
  refine ⟨?_, ?_, ?_⟩
  · intro d g nearest
    have holder := ordered.holder?_of_nearest nearest
    have held := nearest.held
    obtain ⟨v, found⟩ := Option.isSome_iff_exists.mp held
    refine ⟨⟨v, found, ?_, getAt_of_held nearest.reached found⟩, s.define g name value, ?_, ?_,
      rebinds_define held value, ?_, ?_, ?_⟩
    · simp [get_eq_of_holder?, holder, found]
    · simp [assign, holder]
    · rw [assignAt_eq, holderAt_of_held nearest.reached found]
    · intro h
      rw [← ordered.holder?_eq_some_iff]
      by_cases same : s.holder? h name = some g
      · simp [same, get_define_of_holder held value same]
      · simp [same, get_define_of_ne held value (.inr same)]
    · intro h other apart
      refine get_define_of_ne held value (apart.imp_right ?_)
      intro missing found
      obtain ⟨e, nearest⟩ := ordered.exists_nearest found
      exact missing e nearest
    · intro h distance other apart
      exact getAt_define_of_ne apart value
  · intro missing
    have none := ordered.holder?_eq_none_iff.mpr missing
    constructor
    · rw [get_eq_of_holder?, none]
    · rw [assign, none]
  · rintro m token distance rfl rfl
    exact ⟨Eval.run_getNearest, Eval.run_assign, Eval.run_getAt .., Eval.run_assignAt ..⟩

/-- A name held by the outermost frame and by one of two frames further in. -/
def shadowed : Frames Value :=
  ((((((empty.make none).define 0 "x" .nil).make (some 0)).make (some 1)).define 2 "x"
    (.bool true)).make (some 1))

theorem built_shadowed : shadowed.Built := by
  refine .make (.define _ _ _ (.make (.make (.define _ _ _ (.make .empty ?_)) ?_) ?_)) ?_
  · exact nofun
  all_goals
    intro g same
    cases same
    decide

/-- Names and distances agree where a name is shadowed.  From a frame that does not have it the
outermost one is changed, and the frame in between that has the name itself does not see the
change. -/
theorem shadowed_agree :
    shadowed.Built ∧ shadowed.Nearest 3 "x" 2 0 ∧
    ∃ t, shadowed.assign 3 "x" (.bool false) = .ok t ∧
      shadowed.assignAt 3 2 "x" (.bool false) = .ok t ∧ shadowed.Rebinds 0 "x" (.bool false) t ∧
      t.get 3 "x" = .ok (.bool false) ∧ t.get 2 "x" = .ok (.bool true) := by
  have outermost : shadowed.Nearest 0 "x" 0 0 := .here rfl
  have middle : shadowed.Nearest 1 "x" 1 0 := outermost.further rfl rfl
  have nearest : shadowed.Nearest 3 "x" 2 0 := middle.further rfl rfl
  have inner : ∀ e, ¬ shadowed.Nearest 2 "x" e 0 := by
    intro e other
    have holder := built_shadowed.ordered.holder?_of_nearest other
    rw [holder?_of_held (f := 2) rfl] at holder
    cases holder
  obtain ⟨agree, -, -⟩ := names_and_distances_agree built_shadowed 3 "x" (.bool false)
  obtain ⟨-, t, assigned, assignedAt, rebinds, found, others, -⟩ := agree 2 0 nearest
  refine ⟨built_shadowed, nearest, t, assigned, assignedAt, rebinds, ?_, ?_⟩
  · exact (found 3).mpr (.inl ⟨2, nearest⟩)
  · rw [others 2 "x" (.inr inner)]
    rfl

end Frames
end Arbor
