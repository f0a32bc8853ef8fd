import Arbor.Proofs.Execution.Lasting
import Arbor.Proofs.Execution.Sane

/-!
# Names stay in their frames

A call of the evaluator works in frames that were there before and in frames that it makes.  To
those that were there it does little: it never changes what is around them, never takes a name away,
and adds one only where a declaration completes in the very frame.  A declaration that does not
complete has added nothing, since the name is bound behind everything that can fail.

## Main definitions

* `Stmt.declares?`: the name of a declaration.
* `Frames.SameNames`, `Frames.Gains`: no name was added, or one was.

## Main statements

* `sameNames_evaluate`, `sameNames_call`: expressions and calls add no name, however they end.
* `confined_execute`: a statement adds its own name if it is a declaration that completes.
* `mem_globalNames_runAll_iff`: which names are global when a program has run.
-/

namespace Arbor

/-- The name that a declaration declares in the scope it stands in. -/
def Stmt.declares? : Stmt → Option String
  | .varDecl name _ => some name.lexeme
  | .funDecl decl => some decl.name.lexeme
  | .classDecl name _ _ => some name.lexeme
  | _ => none

theorem Stmt.of_declares {s : Stmt} {name : String} (declares : s.declares? = some name) :
    s.isDeclaration = true ∧ s.introduces = [name] := by
  cases s with
  | varDecl | funDecl | classDecl => cases declares; exact ⟨rfl, rfl⟩
  | _ => cases declares

/-- A well-formed statement that is no declaration introduces nothing. -/
theorem Stmt.introduces_of_no_declaration {token : Token → Prop} {s : Stmt}
    (formed : s.Formed token) (plain : s.declares? = none) : s.introduces = [] := by
  refine s.introduces_eq_nil formed ?_
  cases s with
  | varDecl | funDecl | classDecl => cases plain
  | _ => rfl

/-- Well-formed statements introduce the names of the declarations among them.  Otherwise a branch
or a body could be a declaration as well. -/
theorem Scope.mem_introducedBy_iff {token : Token → Prop} {ss : List Stmt}
    (formed : Stmt.AllFormed token ss) {name : String} :
    name ∈ introducedBy ss ↔ ∃ s ∈ ss, s.declares? = some name := by
  refine List.mem_flatMap.trans (exists_congr fun s => and_congr_right fun mem => ?_)
  cases declares : s.declares? with
  | none =>
    rw [Stmt.introduces_of_no_declaration (Stmt.allFormed_iff.mp formed s mem) declares]
    simp
  | some other =>
    rw [(Stmt.of_declares declares).2, List.mem_singleton, Option.some.injEq]
    exact eq_comm

namespace Frames

/-- The frames of `old` hold the same names in `new`, and the same frames are around them. -/
structure SameNames (old new : Frames Value) : Prop where
  size : old.size ≤ new.size
  links : ∀ g < old.size, new.enclosing? g = old.enclosing? g
  names : ∀ g < old.size, ∀ name, name ∈ new.names g ↔ name ∈ old.names g

/-- So they do, but for one name that one of them holds in `new`. -/
structure Gains (frame : FrameId) (gained : String) (old new : Frames Value) : Prop where
  there : frame < old.size
  size : old.size ≤ new.size
  links : ∀ g < old.size, new.enclosing? g = old.enclosing? g
  names : ∀ g < old.size, ∀ name,
    name ∈ new.names g ↔ name ∈ old.names g ∨ g = frame ∧ name = gained

variable {frame : FrameId} {name : String} {old new : Frames Value}

theorem Changes.sameNames (changes : Changes frame [] old new) : SameNames old new := by
  refine ⟨changes.size, changes.links, fun g there name => ?_⟩
  rw [mem_names, mem_names]
  refine ⟨fun holds => ?_, changes.keeps g name⟩
  exact (changes.adds g there name holds).resolve_right fun added => List.not_mem_nil added.2

/-- A change that may have added a name in one frame, and after which the name is held there, is the
gain of this name. -/
theorem Changes.gains (changes : Changes frame [name] old new) (there : frame < old.size)
    (bound : (new.local? frame name).isSome = true) : Gains frame name old new := by
  refine ⟨there, changes.size, changes.links, fun g there' other => ?_⟩
  rw [mem_names, mem_names]
  constructor
  · intro holds
    refine (changes.adds g there' other holds).imp_right fun added => ?_
    exact ⟨added.1, List.mem_singleton.mp added.2⟩
  · rintro (holds | ⟨rfl, rfl⟩)
    · exact changes.keeps g other holds
    · exact bound

end Frames

namespace Execution

open Eval Stateful

variable {turns room : Nat} {f : FrameId} {m m' : Machine}

/-! ### Expressions and calls -/

theorem Binds.changes_left {α : Type} {names : List String} {x : Eval α}
    (binds : Binds f names x) (m : Machine) : m.frames.Changes f names (left x m).frames := by
  have changes := binds m
  unfold Ensures at changes
  unfold left
  split at changes <;> next ran => rw [ran]; exact changes

/-- Evaluating an expression adds no name to a frame, whatever it calls and however it ends. -/
theorem sameNames_evaluate (turns room : Nat) (e : Expr) (f : FrameId) (m : Machine) :
    m.frames.SameNames (left (evaluate turns room e f) m).frames :=
  (((Keeping.all turns room).evaluate e f f).changes_left m).sameNames

theorem sameNames_call (turns room : Nat) (callee : Value) (arguments : List Value) (paren : Token)
    (m : Machine) : m.frames.SameNames (left (call turns room callee arguments paren) m).frames :=
  (((Keeping.all turns room).call callee arguments paren Machine.globals).changes_left m).sameNames

/-! ### Declarations that do not complete -/

/-- If `x` stops it has bound nothing in the frames there were. -/
def StopsClean {α : Type} (f : FrameId) (x : Eval α) (m : Machine) : Prop :=
  Ensures x m (fun _ _ => True) fun _ m' => m.frames.Changes f [] m'.frames

namespace StopsClean

variable {α β : Type} {x : Eval α} {k : α → Eval β}

/-- The first part binds nothing, so it is left to the others. -/
theorem bind (first : Binds f [] x)
    (rest : ∀ a m', m.frames.size ≤ m'.frames.size → StopsClean f (k a) m') :
    StopsClean f (x >>= k) m := by
  refine (first m).bind fun a m' _ changes => ?_
  exact (rest a m' changes.size).mono (fun _ _ _ => trivial) fun _ _ others => changes.trans others

theorem of_completes (completes : Ensures x m (fun _ _ => True) fun _ _ => False) :
    StopsClean f x m :=
  completes.mono (fun _ _ _ => trivial) fun _ _ stops => stops.elim

theorem of_binds (binds : Binds f [] x) : StopsClean f x m :=
  (binds m).mono (fun _ _ _ => trivial) fun _ _ changes => changes

end StopsClean

/-- The frame for the methods is made without touching a name that is bound.  If there is a
superclass, `super` is bound in a new frame. -/
theorem held_methodFrame (superclass : Option Class) {g : FrameId} {name : String}
    (held : (m.frames.local? g name).isSome = true) :
    Ensures (methodFrame f superclass) m (fun _ m' => (m'.frames.local? g name).isSome = true)
      fun _ _ => False := by
  cases superclass with
  | none => exact held
  | some parent =>
    have kept : (((m.frames.make (some f)).define m.frames.size "super" (.cls parent)).local? g
        name).isSome = true := by
      rw [Frames.isSome_local?_define, Frames.local?_make]
      exact .inl held
    exact kept

/-- An assignment to a name that a frame in reach holds completes.  To look the name up is all that
could have failed. -/
theorem completes_assign {g : FrameId} {name : Token} {value : Value}
    (found : m.frames.holder? f name.lexeme = some g) :
    Ensures (assign f name value) m (fun _ _ => True) fun _ _ => False := by
  have ran : (assign f name value).run m = (define g name.lexeme value).run m := by
    change (get >>= _ : Eval Unit).run m = _
    rw [EStateM.run_bind]
    simp only [EStateM.run_get, found]
  unfold Ensures
  rw [ran]
  trivial

/-- A class is made if the frame is there: its name is bound by the time it is assigned to.  It is
bound before the methods are made, and making these keeps the binding, so that the assignment finds
the name in that very frame. -/
theorem completes_makeClass {name : Token} (superclass : Option Class) (decls : List FunDecl)
    (there : f < m.frames.size) :
    Ensures (makeClass f name superclass decls) m (fun _ _ => True) fun _ _ => False := by
  let named : Machine := { m with frames := m.frames.define f name.lexeme .nil }
  have bound : (named.frames.local? f name.lexeme).isSome = true :=
    Frames.isSome_local?_define.mpr (.inr ⟨rfl, rfl, there⟩)
  change Ensures (methodFrame f superclass >>= _) named _ _
  refine (held_methodFrame superclass bound).bind fun g m₁ _ held => ?_
  have made := ensures_makeMethods g decls {} m₁
  refine (made.mono (fun _ _ spec => spec.1.1) fun _ _ no => no).bind fun methods m₂ _ same => ?_
  have found : m₂.frames.holder? f name.lexeme = some f := by
    rw [same]
    exact Frames.holder?_of_held held
  let counted : Machine := { m₂ with made := m₂.made + 1 }
  change Ensures (assign f name _ >>= _) counted _ _
  exact (completes_assign (m := counted) found).bind fun _ _ _ _ => trivial

/-- A class declaration that does not complete has stopped at its superclass, before anything was
bound. -/
theorem stopsClean_declareClass {name : Token} (superclass : Option Superclass)
    (methods : List FunDecl) (there : f < m.frames.size) :
    StopsClean f (declareClass turns room name superclass methods f) m := by
  cases room with
  | zero => exact .of_binds (.throw _)
  | succ room =>
    cases superclass with
    | none => exact .of_completes (completes_makeClass none methods there)
    | some parent =>
      refine .bind ((Keeping.all turns room).evaluate parent.value f f) fun value m₁ more => ?_
      refine .bind (binds_requireClass parent.name value) fun c m₂ more' => ?_
      have there' := Nat.lt_of_lt_of_le there (Nat.le_trans more more')
      exact .of_completes (completes_makeClass (some c) methods there')

/-- A declaration that does not complete has bound nothing.  Whatever can stop it comes before the
name is bound: the initializer or the superclass is evaluated first, which binds nothing in this
frame. -/
theorem stopsClean_execute {s : Stmt} (declares : s.isDeclaration = true)
    (there : f < m.frames.size) : StopsClean f (execute turns room s f) m := by
  cases room with
  | zero => exact .of_binds (.throw _)
  | succ room =>
    cases s with
    | varDecl name initializer =>
      cases initializer with
      | none => exact .of_completes trivial
      | some e =>
        refine .bind (binds_note _) fun _ m₁ _ => ?_
        refine .bind ((Keeping.all turns room).evaluate e f f) fun value m₂ _ => ?_
        exact .of_completes trivial
    | funDecl decl => exact .of_completes trivial
    | classDecl name superclass methods =>
      refine .bind (binds_note _) fun _ m₁ more => ?_
      have there' := Nat.lt_of_lt_of_le there more
      have declared : StopsClean f (declareClass turns room name superclass methods f) m₁ :=
        stopsClean_declareClass superclass methods there'
      exact Ensures.bind declared fun _ _ _ _ => trivial
    | _ => cases declares

/-! ### Statements -/

/-- What a statement does to the names of the frames there were: it adds its own name to the frame
it is executed in if it is a declaration that completes, and nothing otherwise. -/
theorem confined_execute {token : Token → Prop} {s : Stmt} (formed : s.Formed token)
    (there : f < m.frames.size) :
    match s.declares?, (execute turns room s f).run m with
    | some name, .ok _ m' => m.frames.Gains f name m'.frames
    | _, .ok _ m' | _, .error _ m' => m.frames.SameNames m'.frames := by
  cases declares : s.declares? with
  | none =>
    have binds : Binds f [] (execute turns room s f) := by
      rw [← s.introduces_of_no_declaration formed declares]
      exact (Keeping.all turns room).execute s f
    cases ran : (execute turns room s f).run m with
    | ok completion m' => exact (binds.of_ok ran).sameNames
    | error abort m' => exact ((binds m).of_error ran).sameNames
  | some name =>
    obtain ⟨declaration, introduces⟩ := Stmt.of_declares declares
    cases ran : (execute turns room s f).run m with
    | ok completion m' =>
      have changes := changes_execute ran
      have bound := holds_execute declaration there ran
      rw [introduces] at changes bound
      exact changes.gains there (bound name (List.mem_singleton_self name))
    | error abort m' =>
      exact (Ensures.of_error (stopsClean_execute declaration there) ran).sameNames

/-! ### Programs -/

/-- When a program has run, the globals hold the names they held and those of its declarations.  The
induction is on the statements: each adds the name that it declares, if it does, and the program
goes on only if the statement made no jump. -/
theorem mem_globalNames_runAll_iff {token : Token → Prop} {name : String} : ∀ {ss : List Stmt}
    {m m' : Machine}, Stmt.AllFormed token ss → Machine.globals < m.frames.size →
      (runAll turns room ss).run m = .ok () m' →
      (name ∈ m'.globalNames ↔ name ∈ m.globalNames ∨ ∃ s ∈ ss, s.declares? = some name)
  | [], m, m', _, _, ran => by
    cases ran
    simp
  | s :: rest, m, m', formed, there, ran => by
    obtain ⟨completion, m₁, first, others⟩ := run_bind_ok.mp ran
    -- a statement that completes with a jump ends the run
    have goesOn : (runAll turns room rest).run m₁ = .ok () m' := by
      cases jumped : completion.jump? with
      | none =>
        rw [jumped] at others
        exact others
      | some jump =>
        rw [jumped] at others
        exact absurd others run_throw_ok
    have step := @confined_execute turns room _ m token s formed.1 there
    rw [first] at step
    have here : name ∈ m₁.globalNames ↔ name ∈ m.globalNames ∨ s.declares? = some name := by
      cases declares : s.declares? with
      | none =>
        rw [declares] at step
        exact (step.names _ there name).trans (or_iff_left nofun).symm
      | some other =>
        rw [declares] at step
        refine (step.names _ there name).trans (or_congr_right ?_)
        simp [eq_comm]
    have more : m.frames.size ≤ m₁.frames.size := (changes_execute first).size
    rw [mem_globalNames_runAll_iff formed.2 (Nat.lt_of_lt_of_le there more) goesOn, here, or_assoc]
    simp only [List.mem_cons, exists_eq_or_imp]

end Execution
end Arbor
