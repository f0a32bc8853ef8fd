import Arbor.Machine
import Arbor.Proofs.Matching
import Arbor.Proofs.Operator
import Arbor.Proofs.Program.Renaming

/-!
# Two machines that run renamed programs

A program and the same program with local variables renamed make the same frames in the same order.
A marking records what is known of the frames on both sides: the frame around each, and whether a
variable is renamed in it.  Given a marking, values, frames and machines of the two sides can be
compared: a function goes with its renamed version if the marks of the frames around it are those it
was renamed by, and the bindings of a frame match under the exchange of the two names if the frame is
marked, and as they are if it is not.

## Main definitions

* `Marking`, `Marking.Chain`: the frames, and the marks from a frame outward.
* `Value.Renamed`, `Frames.Renamed`, `Machine.Renamed`: what goes with what.

## Main statements

* `Frames.Renamed.make`, `Frames.Renamed.define`: new frames and new bindings.
* `Marking.Chain.ancestor`: the mark of the frame at a distance.
-/

namespace Arbor

/-- What is known of a frame: the one around it, and whether a variable is renamed in it. -/
structure FrameMark where
  enclosing : Option FrameId
  marked : Bool

/-- What is known of all frames, in the order of their numbers. -/
abbrev Marking := List FrameMark

/-- The marks of the frames from a given one outward, the globals left out. -/
inductive Marking.Chain (W : Marking) : FrameId → List Bool → Prop
  | globals (there : W[Machine.globals]? = some ⟨none, false⟩) : Chain W Machine.globals []
  | inside {f outer : FrameId} {here : Bool} {marks : List Bool}
      (there : W[f]? = some ⟨some outer, here⟩) (around : Chain W outer marks) :
      Chain W f (here :: marks)

namespace Marking

variable {W W' : Marking} {f outer : FrameId} {marks : List Bool}

/-- What a marking says of a frame is said by every larger one too.  Markings only grow, because
frames are never removed and a frame is marked once, when it is made. -/
theorem getElem?_of_grows (grows : W <+: W') {mark : FrameMark} (there : W[f]? = some mark) :
    W'[f]? = some mark := by
  obtain ⟨more, rfl⟩ := grows
  rw [List.getElem?_append_left (List.getElem?_eq_some_iff.mp there).1, there]

/-- So the marks from a frame outward are the same under every larger marking. -/
theorem Chain.mono (chain : Chain W f marks) (grows : W <+: W') : Chain W' f marks := by
  induction chain with
  | globals there => exact .globals (getElem?_of_grows grows there)
  | inside there _ ih => exact .inside (getElem?_of_grows grows there) ih

/-- The mark of the frame a chain begins with. -/
theorem Chain.head (chain : Chain W f marks) :
    ∃ enclosing, W[f]? = some ⟨enclosing, marks.headD false⟩ := by
  cases chain with
  | globals there => exact ⟨none, there⟩
  | inside there _ => exact ⟨_, there⟩

/-- Every chain ends in the globals, where nothing is renamed. -/
theorem Chain.outermost (chain : Chain W f marks) :
    W[Machine.globals]? = some ⟨none, false⟩ := by
  induction chain with
  | globals there => exact there
  | inside _ _ ih => exact ih

end Marking

/-! ### Values -/

section Values

variable (ρ : Renaming) (W : Marking)

/-- Two functions that are renamed by the marks of the frames around them, `around` being those of
frames that are yet to be made. -/
structure Closure.Renamed (around : List Bool) (c c' : Closure) : Prop where
  id : c'.id = c.id
  frame : c'.frame = c.frame
  isInitializer : c'.isInitializer = c.isInitializer
  formed : c.decl.Formed ρ.Fits
  decl : ∃ marks, W.Chain c.frame marks ∧ c.decl.Renamed ρ (around ++ marks) c'.decl

/-- Two methods, for which a frame that holds `this` is yet to be made. -/
abbrev Closure.RenamedMethod : Closure → Closure → Prop :=
  Closure.Renamed ρ W [false]

/-- Two classes whose methods go with each other. -/
inductive Class.Renamed : Class → Class → Prop
  | plain {id : Nat} {name : String} {methods methods' : Bindings Closure}
      (each : methods.Matches (Equiv.refl String) (Closure.RenamedMethod ρ W) methods') :
      Renamed ⟨id, name, none, methods⟩ ⟨id, name, none, methods'⟩
  | derived {id : Nat} {name : String} {parent parent' : Class} {methods methods' : Bindings Closure}
      (above : Renamed parent parent')
      (each : methods.Matches (Equiv.refl String) (Closure.RenamedMethod ρ W) methods') :
      Renamed ⟨id, name, some parent, methods⟩ ⟨id, name, some parent', methods'⟩

/-- Two values that look the same from outside. -/
inductive Value.Renamed : Value → Value → Prop
  | nil : Renamed .nil .nil
  | bool (b : Bool) : Renamed (.bool b) (.bool b)
  | number (x : Float) : Renamed (.number x) (.number x)
  | text (s : String) : Renamed (.text s) (.text s)
  | native (n : Native) : Renamed (.native n) (.native n)
  | closure {c c' : Closure} (same : c.Renamed ρ W [] c') : Renamed (.closure c) (.closure c')
  | cls {c c' : Class} (same : c.Renamed ρ W c') : Renamed (.cls c) (.cls c')
  | object {id : Nat} {c c' : Class} (same : c.Renamed ρ W c') :
      Renamed (.object ⟨id, c⟩) (.object ⟨id, c'⟩)

variable {ρ W} {W' : Marking}

/-- Functions that go with each other still do so when frames have been made since: the frame in
which they were made has kept its marks. -/
theorem Closure.Renamed.mono {around : List Bool} {c c' : Closure} (same : c.Renamed ρ W around c')
    (grows : W <+: W') : c.Renamed ρ W' around c' := by
  obtain ⟨marks, chain, renamed⟩ := same.decl
  exact { same with decl := ⟨marks, chain.mono grows, renamed⟩ }

/-- So do classes, by their methods and by what they inherit from. -/
theorem Class.Renamed.mono {c c' : Class} (same : c.Renamed ρ W c') (grows : W <+: W') :
    c.Renamed ρ W' c' := by
  induction same with
  | plain each => exact .plain (each.mono fun _ _ same => same.mono grows)
  | derived _ each ih => exact .derived ih (each.mono fun _ _ same => same.mono grows)

/-- So do values of all kinds.  This is what lets a value wait in a frame while the marking
grows. -/
theorem Value.Renamed.mono {v v' : Value} (same : v.Renamed ρ W v') (grows : W <+: W') :
    v.Renamed ρ W' v' := by
  cases same with
  | nil => exact .nil
  | bool b => exact .bool b
  | number x => exact .number x
  | text s => exact .text s
  | native n => exact .native n
  | closure same => exact .closure (same.mono grows)
  | cls same => exact .cls (same.mono grows)
  | object same => exact .object (same.mono grows)

/-! ### What can be seen of values -/

/-- Functions keep their names, as only variables are renamed that can be seen nowhere else. -/
theorem Closure.Renamed.name {around : List Bool} {c c' : Closure}
    (same : c.Renamed ρ W around c') : c'.name = c.name := by
  obtain ⟨marks, -, renamed⟩ := same.decl
  exact congrArg Token.lexeme renamed.same.1

/-- The parameters of a function may be renamed, and there are as many of them. -/
theorem Closure.Renamed.arity {around : List Bool} {c c' : Closure}
    (same : c.Renamed ρ W around c') : c'.arity = c.arity := by
  obtain ⟨marks, -, renamed⟩ := same.decl
  exact renamed.same.2

/-- Classes have the same identities, so comparing them comes out the same. -/
theorem Class.Renamed.id {c c' : Class} (same : c.Renamed ρ W c') : c'.id = c.id := by
  cases same <;> rfl

/-- Classes keep their names, which are printed. -/
theorem Class.Renamed.name {c c' : Class} (same : c.Renamed ρ W c') : c'.name = c.name := by
  cases same <;> rfl

/-- Methods are found in both classes or in none.  The induction is along the chain of superclasses,
which is of one length on both sides. -/
theorem Class.Renamed.findMethod? {c c' : Class} (same : c.Renamed ρ W c') (name : String) :
    Option.Rel (Closure.RenamedMethod ρ W) (c.findMethod? name) (c'.findMethod? name) := by
  induction same with
  | plain each => exact each.get? name
  | @derived _ _ _ _ methods methods' _ each ih =>
    have own : Option.Rel (Closure.RenamedMethod ρ W) (methods.get? name) (methods'.get? name) :=
      each.get? name
    rw [Class.findMethod?, Class.findMethod?]
    generalize methods.get? name = method at own
    generalize methods'.get? name = method' at own
    cases own with
    | some same => exact .some same
    | none => exact ih

/-- A class takes as many arguments as its initializer, which is found on both sides or on
neither. -/
theorem Class.Renamed.arity {c c' : Class} (same : c.Renamed ρ W c') : c'.arity = c.arity := by
  have own := same.findMethod? "init"
  unfold Class.arity Class.initializer?
  generalize c.findMethod? "init" = init at own
  generalize c'.findMethod? "init" = init' at own
  cases own with
  | some same => exact same.arity
  | none => rfl

namespace Value.Renamed

variable {v v' w w' : Value}

/-- A constant of the program goes with itself. -/
theorem ofConstant (value : Constant) : (Value.ofConstant value).Renamed ρ W (.ofConstant value) := by
  cases value with
  | nil => exact .nil
  | bool b => exact .bool b
  | number x => exact .number x
  | text s => exact .text s

/-- Values that go with each other are printed alike.  Nothing that is printed depends on a
variable's name. -/
theorem shown (same : v.Renamed ρ W v') : v'.shown = v.shown := by
  cases same with
  | closure same => exact congrArg (fun name => "<fn " ++ name ++ ">") same.name
  | cls same => exact same.name
  | object same => exact congrArg (· ++ " instance") same.name
  | _ => rfl

/-- They are both taken for true or both for false. -/
theorem isTruthy (same : v.Renamed ρ W v') : v'.isTruthy = v.isTruthy := by
  cases same <;> rfl

/-- They take equally many arguments, or neither can be called. -/
theorem arity? (same : v.Renamed ρ W v') : v'.arity? = v.arity? := by
  cases same with
  | closure same => exact congrArg some same.arity
  | cls same => exact congrArg some same.arity
  | _ => rfl

/-- They are equal to others on both sides alike: functions, classes and instances are compared by
identity, and identities are given out in step. -/
theorem isEqual (first : v.Renamed ρ W v') (second : w.Renamed ρ W w') :
    v'.isEqual w' = v.isEqual w := by
  cases first with
  | closure same =>
    cases second with
    | closure same' => exact congrArg₂ (· == ·) same.id same'.id
    | _ => rfl
  | cls same =>
    cases second with
    | cls same' => exact congrArg₂ (· == ·) same.id same'.id
    | _ => rfl
  | _ => cases second <;> rfl

/-- An operator comes to the same. -/
theorem applyUnary (same : v.Renamed ρ W v') (operator : Token) :
    Operator.applyUnary operator v' = Operator.applyUnary operator v := by
  unfold Operator.applyUnary
  rw [same.isTruthy]
  cases same <;> rfl

/-- An operator makes the same of them, since it looks at plain values and at equality only. -/
theorem applyBinary (first : v.Renamed ρ W v') (second : w.Renamed ρ W w') (operator : Token) :
    Operator.applyBinary operator v' w' = Operator.applyBinary operator v w := by
  unfold Operator.applyBinary
  rw [first.isEqual second]
  cases first <;> cases second <;> rfl

end Value.Renamed

/-- A value without functions or classes in it goes with itself. -/
theorem Value.Renamed.of_plain {v : Value} (plain : v.isPlain = true) : v.Renamed ρ W v := by
  cases v with
  | nil => exact .nil
  | bool b => exact .bool b
  | number x => exact .number x
  | text s => exact .text s
  | _ => cases plain

end Values

/-! ### Frames -/

section Frames

variable (ρ : Renaming) (W : Marking)

/-- Frames that are what a marking says, with bindings that match. -/
structure Frames.Renamed (s s' : Frames Value) : Prop where
  size : s.size = W.length
  size' : s'.size = W.length
  cells : ∀ (f : FrameId) (mark : FrameMark), W[f]? = some mark → ∃ b b' : Bindings Value,
    s.cells[f]? = some ⟨mark.enclosing, b⟩ ∧
    s'.cells[f]? = some ⟨mark.enclosing, b'⟩ ∧ b.Matches (ρ.perm mark.marked) (Value.Renamed ρ W) b'

variable {ρ W} {s s' : Frames Value} {f : FrameId}

namespace Frames.Renamed

/-- The frames are linked in the same way.  Those without a mark are beyond the last one on both
sides, and are linked to none. -/
theorem enclosing? (renamed : s.Renamed ρ W s') (f : FrameId) :
    s'.enclosing? f = s.enclosing? f := by
  unfold Frames.enclosing?
  cases there : W[f]? with
  | some mark =>
    obtain ⟨b, b', cell, cell', -⟩ := renamed.cells f mark there
    rw [cell, cell']
    rfl
  | none =>
    have beyond := List.getElem?_eq_none_iff.mp there
    have size : s.cells.size ≤ f := Nat.le_trans (Nat.le_of_eq renamed.size) beyond
    have size' : s'.cells.size ≤ f := Nat.le_trans (Nat.le_of_eq renamed.size') beyond
    rw [Array.getElem?_eq_none size, Array.getElem?_eq_none size']

/-- The frame around a frame is the one that the marking says. -/
theorem enclosing?_eq (renamed : s.Renamed ρ W s') {mark : FrameMark} (there : W[f]? = some mark) :
    s.enclosing? f = mark.enclosing := by
  obtain ⟨b, b', cell, -⟩ := renamed.cells f mark there
  unfold Frames.enclosing?
  rw [cell]
  rfl

/-- The same number of links leads to the same frame on both sides, because links are not renamed.
So a distance keeps its meaning, whatever the names on the way are. -/
theorem ancestor? (renamed : s.Renamed ρ W s') (links : Nat) (f : FrameId) :
    s'.ancestor? links f = s.ancestor? links f := by
  induction links generalizing f with
  | zero => rfl
  | succ links ih =>
    unfold Frames.ancestor?
    rw [renamed.enclosing?]
    cases s.enclosing? f with
    | none => rfl
    | some outer => exact ih outer

/-- What frames hold under the two names. -/
theorem local? (renamed : s.Renamed ρ W s') {mark : FrameMark} (there : W[f]? = some mark)
    (name : String) :
    Option.Rel (Value.Renamed ρ W) (s.local? f name) (s'.local? f (ρ.perm mark.marked name)) := by
  obtain ⟨b, b', cell, cell', matched⟩ := renamed.cells f mark there
  unfold Frames.local?
  rw [cell, cell']
  exact matched.get? name

/-- A name is bound in a frame, under the two names.  Only that frame changes, and in it the two
names are exchanged exactly if the frame is marked. -/
theorem define (renamed : s.Renamed ρ W s') {mark : FrameMark} (there : W[f]? = some mark)
    (name : String) {v v' : Value} (same : v.Renamed ρ W v') :
    (s.define f name v).Renamed ρ W (s'.define f (ρ.perm mark.marked name) v') := by
  refine ⟨by rw [Frames.size_define, renamed.size], by rw [Frames.size_define, renamed.size'],
    fun g mark' found => ?_⟩
  obtain ⟨b, b', cell, cell', matched⟩ := renamed.cells g mark' found
  unfold Frames.define
  dsimp only
  rw [Array.getElem?_modify, Array.getElem?_modify, cell, cell']
  by_cases here : f = g
  · subst here
    obtain rfl : mark = mark' := Option.some.inj (there.symm.trans found)
    rw [if_pos rfl, if_pos rfl]
    exact ⟨_, _, rfl, rfl, matched.put name same⟩
  · rw [if_neg here, if_neg here]
    exact ⟨b, b', rfl, rfl, matched⟩

/-- A frame is made inside another, marked or not.  Its mark is appended, so that the marks of the
frames before are found where they were. -/
theorem make (renamed : s.Renamed ρ W s') (enclosing : FrameId) (here : Bool) :
    (s.make (some enclosing)).Renamed ρ (W ++ [⟨some enclosing, here⟩])
      (s'.make (some enclosing)) := by
  have grows : W <+: W ++ [⟨some enclosing, here⟩] := List.prefix_append _ _
  refine ⟨?_, ?_, fun f mark found => ?_⟩
  · rw [Frames.size_make, renamed.size, List.length_append]
    rfl
  · rw [Frames.size_make, renamed.size', List.length_append]
    rfl
  · have size : s.cells.size = W.length := renamed.size
    have size' : s'.cells.size = W.length := renamed.size'
    unfold Frames.make
    dsimp only
    rw [Array.getElem?_push, Array.getElem?_push, size, size']
    by_cases new : f = W.length
    · subst new
      rw [List.getElem?_concat_length] at found
      cases found
      rw [if_pos rfl, if_pos rfl]
      exact ⟨_, _, rfl, rfl, .empty⟩
    · rw [if_neg new, if_neg new]
      have bound := (List.getElem?_eq_some_iff.mp found).1
      rw [List.length_append, List.length_singleton] at bound
      have old : f < W.length := Nat.lt_of_le_of_ne (Nat.le_of_lt_succ bound) new
      rw [List.getElem?_append_left old] at found
      obtain ⟨b, b', cell, cell', matched⟩ := renamed.cells f mark found
      exact ⟨b, b', cell, cell', matched.mono fun _ _ same => same.mono grows⟩

end Frames.Renamed

/-- The frame at a distance is marked as the chain says.  The induction is along the chain, which
has a mark for each frame that the walk outward comes through. -/
theorem Marking.Chain.ancestor {marks : List Bool} (chain : W.Chain f marks)
    (renamed : s.Renamed ρ W s') {links : Nat} {g : FrameId}
    (reached : s.ancestor? links f = some g) :
    ∃ enclosing, W[g]? = some ⟨enclosing, marks.getD links false⟩ := by
  induction chain generalizing links with
  | globals there =>
    cases links with
    | zero =>
      cases reached
      exact ⟨none, there⟩
    | succ links =>
      unfold Frames.ancestor? at reached
      rw [renamed.enclosing?_eq there] at reached
      cases reached
  | @inside f outer here marks there _ ih =>
    cases links with
    | zero =>
      cases reached
      exact ⟨some outer, there⟩
    | succ links =>
      unfold Frames.ancestor? at reached
      rw [renamed.enclosing?_eq there] at reached
      exact ih reached

end Frames

/-! ### Machines -/

/-- Machines that differ in the names of some local variables, and in the trace. -/
structure Machine.Renamed (ρ : Renaming) (W : Marking) (m m' : Machine) : Prop where
  frames : m.frames.Renamed ρ W m'.frames
  instances : m'.fields.size = m.fields.size
  fields : ∀ i : Nat, Option.Rel (Bindings.Matches (Equiv.refl String) (Value.Renamed ρ W))
    m.fields[i]? m'.fields[i]?
  made : m'.made = m.made
  output : m'.output = m.output
  clock : m'.clock = m.clock
  readings : m'.readings = m.readings

namespace Machine.Renamed

variable {ρ : Renaming} {W W' : Marking} {m m' : Machine}

/-- Fields go with each other whatever else becomes known of the frames. -/
theorem fields_mono (renamed : m.Renamed ρ W m') (grows : W <+: W') (i : Nat) :
    Option.Rel (Bindings.Matches (Equiv.refl String) (Value.Renamed ρ W')) m.fields[i]?
      m'.fields[i]? :=
  Bindings.rel_mono (renamed.fields i) fun _ _ matched =>
    matched.mono fun _ _ same => same.mono grows

/-- The fields of an instance, of which there are none if it is not known.  Instances of one number
are known on both sides or on neither. -/
theorem fieldsOf (renamed : m.Renamed ρ W m') {i i' : Instance} (same : i'.id = i.id) :
    (m.fieldsOf i).Matches (Equiv.refl String) (Value.Renamed ρ W) (m'.fieldsOf i') := by
  have fields := renamed.fields i.id
  unfold Machine.fieldsOf
  rw [same]
  generalize m.fields[i.id]? = here at fields
  generalize m'.fields[i.id]? = there at fields
  cases fields with
  | some matched => exact matched
  | none => exact .empty

end Machine.Renamed

end Arbor
