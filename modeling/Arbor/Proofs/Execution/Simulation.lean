import Arbor.Proofs.Execution.Marking
import Arbor.Proofs.Execution.Names
import Arbor.Proofs.Parallel

/-!
# Machines in step

Computations on two machines run in step if they return values that go with each other or stop for
the same reason, and leave machines that go with each other, under some larger marking.  This module
has the rules of that judgement and shows it for all operations of the machine.

A frame is marked or not when it is made.  A lookup at a distance ends in a frame whose mark is known,
and that mark says by which name the other machine has to look.  The one lookup by name that starts
in a local frame is that of a class which has just been declared there, and it ends where it starts.

## Main definitions

* `Execution.Simulates`: computations that run in step from machines that go with each other.

## Main statements

* `Execution.simulates_lookUp`, `Execution.simulates_store`: references under two names.
* `Execution.simulates_makeClass`: declarations of classes.
-/

namespace Arbor

/-- Two reasons to stop that are the same but for the name of a renamed variable that is missing. -/
inductive Abort.Renamed (ρ : Renaming) : Abort → Abort → Prop
  | same (abort : Abort) : Renamed ρ abort abort
  | missing (distance : Int) :
      Renamed ρ (.fault (.nameMissing ρ.old distance)) (.fault (.nameMissing ρ.new distance))

/-- Two ways to complete, with values that go with each other. -/
inductive Completion.Renamed (ρ : Renaming) (W : Marking) : Completion → Completion → Prop
  | normal : Renamed ρ W .normal .normal
  | returned {v v' : Value} (same : v.Renamed ρ W v') : Renamed ρ W (.returned v) (.returned v')
  | broke : Renamed ρ W .broke .broke
  | continued : Renamed ρ W .continued .continued

/-- What statements complete with makes the same jump, so it is taken at the same place. -/
theorem Completion.Renamed.jump? {ρ : Renaming} {W : Marking} {c c' : Completion}
    (same : c.Renamed ρ W c') : c'.jump? = c.jump? := by
  cases same <;> rfl

/-- A name that is missing is missing under its other name, which is the one way in which faults
differ. -/
theorem Abort.Renamed.missing_perm {ρ : Renaming} {name : String} (fresh : name ≠ ρ.new)
    (marked : Bool) (distance : Int) :
    Abort.Renamed ρ (.fault (.nameMissing name distance))
      (.fault (.nameMissing (ρ.perm marked name) distance)) := by
  rcases Renaming.perm_cases fresh marked with same | ⟨rfl, renamed⟩
  · rw [same]
    exact .same _
  · rw [renamed]
    exact .missing distance

/-! ### Lookups by name -/

namespace Frames

variable {s : Frames Value}

/-- Nothing lies outside the globals, so every walk from there ends at once. -/
theorem outward_globals : s.outward Machine.globals = [Machine.globals] := by
  unfold outward walk
  cases s.enclosing? Machine.globals with
  | none => rfl
  | some outer => exact if_neg (Nat.not_lt_zero outer)

/-- Among the globals a name is looked up nowhere else. -/
theorem get_globals (name : String) :
    s.get Machine.globals name =
      (s.local? Machine.globals name).elim (.error (.undefinedVariable name)) .ok := by
  unfold get
  rw [outward_globals]
  cases held : s.local? Machine.globals name <;> simp [held]

/-- A search from the globals finds them or nothing. -/
theorem holder?_globals (name : String) :
    s.holder? Machine.globals name =
      (s.local? Machine.globals name).map fun _ => Machine.globals := by
  unfold holder?
  rw [outward_globals]
  cases held : s.local? Machine.globals name <;> simp [held]

end Frames

namespace Execution

open Eval Stateful

variable {ρ : Renaming} {W : Marking} {α β : Type}

/-- Two computations that run in step from machines that go with each other. -/
def Simulates (ρ : Renaming) (W : Marking) (x x' : Eval α) (goes : Marking → α → α → Prop) : Prop :=
  ∀ m m', m.Renamed ρ W m' →
    Parallel x m x' m' (fun a n a' n' => ∃ W', W <+: W' ∧ n.Renamed ρ W' n' ∧ goes W' a a')
      fun e n e' n' => Abort.Renamed ρ e e' ∧ ∃ W', W <+: W' ∧ n.Renamed ρ W' n'

namespace Simulates

variable {x x' : Eval α} {goes : Marking → α → α → Prop} {after : Marking → β → β → Prop}

/-- Results that go with each other may be given at once, under the marking there is. -/
theorem pure {a a' : α} (holds : goes W a a') : Simulates ρ W (Pure.pure a) (Pure.pure a') goes :=
  fun _ _ renamed => Parallel.pure ⟨W, List.prefix_rfl, renamed, holds⟩

/-- Stopping is in step if the reasons go with each other. -/
theorem throw {abort abort' : Abort} (same : Abort.Renamed ρ abort abort') :
    Simulates ρ W (MonadExcept.throw abort : Eval α) (MonadExcept.throw abort') goes :=
  fun _ _ renamed => Parallel.throw ⟨same, W, List.prefix_rfl, renamed⟩

/-- Errors of the program go with each other if they are the same error on the same line. -/
theorem fail {line line' : Int} {cause cause' : RuntimeCause} (sameLine : line' = line)
    (sameCause : cause' = cause) :
    Simulates ρ W (Eval.fail line cause : Eval α) (Eval.fail line' cause') goes := by
  rw [sameLine, sameCause]
  exact throw (.same _)

/-- What is known of the frames may grow in between. -/
theorem lift {W₀ : Marking} {m m' : Machine} (sim : Simulates ρ W x x' goes) (grows : W₀ <+: W)
    (renamed : m.Renamed ρ W m') :
    Parallel x m x' m' (fun a n a' n' => ∃ W', W₀ <+: W' ∧ n.Renamed ρ W' n' ∧ goes W' a a')
      fun e n e' n' => Abort.Renamed ρ e e' ∧ ∃ W', W₀ <+: W' ∧ n.Renamed ρ W' n' := by
  refine (sim m m' renamed).mono ?_ ?_
  · rintro a n a' n' ⟨W', further, rest⟩
    exact ⟨W', grows.trans further, rest⟩
  · rintro e n e' n' ⟨same, W', further, rest⟩
    exact ⟨same, W', grows.trans further, rest⟩

/-- In sequence the marking may grow on the way, and the second parts start from the larger one. -/
theorem bind {k k' : α → Eval β} (first : Simulates ρ W x x' goes)
    (second : ∀ W' a a', W <+: W' → goes W' a a' → Simulates ρ W' (k a) (k' a') after) :
    Simulates ρ W (x >>= k) (x' >>= k') after := by
  intro m m' renamed
  refine (first m m' renamed).bind ?_
  rintro a n a' n' ⟨W', grows, renamed', holds⟩
  exact (second W' a a' grows holds).lift grows renamed'

/-- Stack overflow is met by both or by neither, since they nest equally deep. -/
theorem catchOverflow (line : Int) {body body' : Eval Value} {goes : Marking → Value → Value → Prop}
    (inner : Simulates ρ W body body' goes) :
    Simulates ρ W (catchOverflow line body) (catchOverflow line body') goes := by
  intro m m' renamed
  refine Parallel.tryCatch (inner m m' renamed) ?_
  rintro abort n _ n' ⟨same, grown⟩
  cases same with
  | same => cases abort <;> exact Parallel.throw ⟨.same _, grown⟩
  | missing distance => exact Parallel.throw ⟨.missing distance, grown⟩

/-- A change of both machines that makes nothing known. -/
theorem modify {change change' : Machine → Machine}
    (kept : ∀ m m', m.Renamed ρ W m' → (change m).Renamed ρ W (change' m')) :
    Simulates ρ W (modify change : Eval PUnit) (modify change') fun _ _ _ => True :=
  fun _ _ renamed => Parallel.modify ⟨W, List.prefix_rfl, kept _ _ renamed, trivial⟩

end Simulates

/-! ### Trace, output and time -/

/-- Events may differ, as the trace is not compared. -/
theorem simulates_note (event event' : Event) :
    Simulates ρ W (note event) (note event') fun _ _ _ => True :=
  .modify fun _ _ renamed => { renamed with }

/-- Values that go with each other are shown alike, so the same line is printed. -/
theorem simulates_print {v v' : Value} (same : v.Renamed ρ W v') :
    Simulates ρ W (print v) (print v') fun _ _ _ => True :=
  .modify fun _ _ renamed =>
    { renamed with output := congrArg₂ Array.push renamed.output same.shown }

/-- The clocks are the same and have been read equally often, so they show the same time. -/
theorem simulates_readClock : Simulates ρ W readClock readClock (Value.Renamed ρ) := by
  intro m m' renamed
  refine Parallel.modifyGet ⟨W, List.prefix_rfl,
    { renamed with readings := congrArg (· + 1) renamed.readings }, ?_⟩
  rw [renamed.clock, renamed.readings]
  exact .number _

/-! ### Frames -/

section Frames

variable {f : FrameId} {marks : List Bool}

/-- A frame is made inside another, and a variable is renamed in it or none is. -/
theorem simulates_newFrame (chain : W.Chain f marks) (here : Bool) :
    Simulates ρ W (newFrame f) (newFrame f) fun W' g g' => g' = g ∧ W'.Chain g (here :: marks) := by
  intro m m' renamed
  have grows : W <+: W ++ [⟨some f, here⟩] := List.prefix_append _ _
  have made : (W ++ [⟨some f, here⟩])[m.frames.size]? = some ⟨some f, here⟩ := by
    rw [renamed.frames.size, List.getElem?_concat_length]
  refine Parallel.modifyGet ⟨W ++ [⟨some f, here⟩], grows,
    { renamed with frames := renamed.frames.make f here, fields := renamed.fields_mono grows },
    renamed.frames.size'.trans renamed.frames.size.symm, .inside made (chain.mono grows)⟩

/-- In a frame whose mark is known a name is bound under the other name that this mark asks for. -/
theorem simulates_define (chain : W.Chain f marks) (name : String) {v v' : Value}
    (same : v.Renamed ρ W v') :
    Simulates ρ W (define f name v) (define f (ρ.perm (marks.headD false) name) v')
      fun _ _ _ => True := by
  obtain ⟨enclosing, there⟩ := chain.head
  exact .modify fun _ _ renamed =>
    { renamed with frames := renamed.frames.define there name same }

/-- A name of the language is the same in all scopes. -/
theorem simulates_define_this (chain : W.Chain f marks) {v v' : Value} (same : v.Renamed ρ W v') :
    Simulates ρ W (define f "this" v) (define f "this" v') fun _ _ _ => True := by
  have defined := simulates_define chain "this" same
  rwa [Renaming.perm_this] at defined

/-- The keywords are no names of the program, and keep their spelling in every frame. -/
theorem simulates_define_super (chain : W.Chain f marks) {v v' : Value} (same : v.Renamed ρ W v') :
    Simulates ρ W (define f "super" v) (define f "super" v') fun _ _ _ => True := by
  have defined := simulates_define chain "super" same
  rwa [Renaming.perm_super] at defined

/-- The same for a name of the program, which is not yet in use as the new name. -/
theorem simulates_define_token (chain : W.Chain f marks) {name : Token} (fits : ρ.Fits name)
    {v v' : Value} (same : v.Renamed ρ W v') :
    Simulates ρ W (define f name.lexeme v)
      (define f (ρ.token (marks.headD false) name).lexeme v') fun _ _ _ => True := by
  rw [Renaming.token_lexeme fits.fresh]
  exact simulates_define chain name.lexeme same

/-- What is found at a distance under the two names.  Both walks come to the same frame, since
renaming changes no link, and the name that is sought there is renamed by the mark of that frame. -/
theorem simulates_holderAt (chain : W.Chain f marks) (distance : Int) {name : String}
    (fresh : name ≠ ρ.new) {m m' : Machine} (renamed : m.Renamed ρ W m') :
    (∃ fault fault', m.frames.holderAt f distance name = .error fault ∧
      m'.frames.holderAt f distance (ρ.perm (marks.getD distance.toNat false) name)
        = .error fault' ∧ Abort.Renamed ρ (.fault fault) (.fault fault')) ∨
    ∃ g v v', m.frames.holderAt f distance name = .ok (g, v) ∧
      m'.frames.holderAt f distance (ρ.perm (marks.getD distance.toNat false) name) = .ok (g, v') ∧
      v.Renamed ρ W v' ∧
      ∃ enclosing, W[g]? = some ⟨enclosing, marks.getD distance.toNat false⟩ := by
  unfold Frames.holderAt Frames.ancestor
  rw [renamed.frames.ancestor?]
  cases reached : m.frames.ancestor? distance.toNat f with
  | none => exact .inl ⟨_, _, rfl, rfl, .same _⟩
  | some g =>
    obtain ⟨enclosing, there⟩ := chain.ancestor renamed.frames reached
    have held := renamed.frames.local? there name
    dsimp only [Bind.bind, Except.bind] at held ⊢
    generalize m.frames.local? g name = here at held
    generalize m'.frames.local? g _ = other at held
    cases held with
    | some same => exact .inr ⟨g, _, _, rfl, rfl, same, enclosing, there⟩
    | none => exact .inl ⟨_, _, rfl, rfl, .missing_perm fresh _ _⟩

/-- A variable is read from a frame whose mark is known from the distance, and so is the name to
look for. -/
theorem simulates_getAt (chain : W.Chain f marks) (distance : Int) {name : String}
    (fresh : name ≠ ρ.new) :
    Simulates ρ W (getAt f distance name)
      (getAt f distance (ρ.perm (marks.getD distance.toNat false) name)) (Value.Renamed ρ) := by
  intro m m' renamed
  refine Parallel.look ?_
  unfold Frames.getAt
  rcases simulates_holderAt chain distance fresh renamed with
    ⟨fault, fault', here, there, same⟩ | ⟨g, v, v', here, there, same, -⟩
  · rw [here, there]
    exact Parallel.throw ⟨same, W, List.prefix_rfl, renamed⟩
  · rw [here, there]
    exact Parallel.pure ⟨W, List.prefix_rfl, renamed, same⟩

/-- An assignment at a distance looks for the same frame, and binds the name its mark asks for.  If
the name is missing it is missing on both sides, and the faults differ in the name only. -/
theorem simulates_assignAt (chain : W.Chain f marks) (distance : Int) {name : String}
    (fresh : name ≠ ρ.new) {v v' : Value} (values : v.Renamed ρ W v') :
    Simulates ρ W (assignAt f distance name v)
      (assignAt f distance (ρ.perm (marks.getD distance.toNat false) name) v')
      fun _ _ _ => True := by
  intro m m' renamed
  refine Parallel.look ?_
  rcases simulates_holderAt chain distance fresh renamed with
    ⟨fault, fault', here, there, same⟩ | ⟨g, old, old', here, there, -, enclosing, mark⟩
  · rw [here, there]
    exact Parallel.throw ⟨same, W, List.prefix_rfl, renamed⟩
  · rw [here, there]
    exact Parallel.modify ⟨W, List.prefix_rfl,
      { renamed with frames := renamed.frames.define mark name values }, trivial⟩

/-- The receiver is read alike at every distance. -/
theorem simulates_getAt_this (chain : W.Chain f marks) (distance : Int) :
    Simulates ρ W (getAt f distance "this") (getAt f distance "this") (Value.Renamed ρ) := by
  have got := simulates_getAt chain distance (Renaming.this_ne_new (ρ := ρ))
  rwa [Renaming.perm_this] at got

/-- So is the superclass. -/
theorem simulates_getAt_super (chain : W.Chain f marks) (distance : Int) :
    Simulates ρ W (getAt f distance "super") (getAt f distance "super") (Value.Renamed ρ) := by
  have got := simulates_getAt chain distance (Renaming.super_ne_new (ρ := ρ))
  rwa [Renaming.perm_super] at got

/-- The globals go by the same names on both machines, and so does the error if there is no such
name.  Their frame is the last one of every chain, and is never marked. -/
theorem simulates_getGlobal (chain : W.Chain f marks) (name : Token) :
    Simulates ρ W (getGlobal name) (getGlobal name) (Value.Renamed ρ) := by
  intro m m' renamed
  refine Parallel.look ?_
  have held := renamed.frames.local? chain.outermost name.lexeme
  rw [Renaming.perm_false] at held
  rw [Frames.get_globals, Frames.get_globals]
  generalize m.frames.local? Machine.globals name.lexeme = here at held
  generalize m'.frames.local? Machine.globals name.lexeme = there at held
  cases held with
  | some same => exact Parallel.pure ⟨W, List.prefix_rfl, renamed, same⟩
  | none => exact Parallel.throw ⟨.same _, W, List.prefix_rfl, renamed⟩

/-- What is assigned in the frame that holds the name.  It is found there on both sides without a
walk outward, so nothing needs to be known about the frames around. -/
theorem parallel_assign {m m' : Machine} (renamed : m.Renamed ρ W m') (chain : W.Chain f marks)
    {name : Token} (kept : ρ.perm (marks.headD false) name.lexeme = name.lexeme)
    (holds : (m.frames.local? f name.lexeme).isSome = true) {v v' : Value}
    (values : v.Renamed ρ W v') {stops : Abort → Machine → Abort → Machine → Prop} :
    Parallel (assign f name v) m (assign f name v') m' (fun _ n _ n' => n.Renamed ρ W n') stops := by
  obtain ⟨enclosing, there⟩ := chain.head
  have held := renamed.frames.local? there name.lexeme
  dsimp only at held
  rw [kept] at held
  have holds' : (m'.frames.local? f name.lexeme).isSome = true := by
    rw [Option.isSome_iff_exists] at holds ⊢
    obtain ⟨value, found⟩ := holds
    rw [found] at held
    generalize m'.frames.local? f name.lexeme = other at held
    cases held with
    | some => exact ⟨_, rfl⟩
  refine Parallel.look ?_
  rw [Frames.holder?_of_held holds, Frames.holder?_of_held holds']
  have defined := renamed.frames.define there name.lexeme values
  dsimp only at defined
  rw [kept] at defined
  exact Parallel.modify { renamed with frames := defined }

/-- The globals are never marked, so assignments to them are the same on both sides, and so is what
is reported if the name is missing there. -/
theorem simulates_assign_globals (chain : W.Chain f marks) (name : Token) {v v' : Value}
    (values : v.Renamed ρ W v') :
    Simulates ρ W (assign Machine.globals name v) (assign Machine.globals name v')
      fun _ _ _ => True := by
  intro m m' renamed
  have held := renamed.frames.local? chain.outermost name.lexeme
  have defined := renamed.frames.define chain.outermost name.lexeme values
  rw [Renaming.perm_false] at held defined
  refine Parallel.look ?_
  rw [Frames.holder?_globals, Frames.holder?_globals]
  generalize m.frames.local? Machine.globals name.lexeme = here at held
  generalize m'.frames.local? Machine.globals name.lexeme = there at held
  cases held with
  | some =>
    exact Parallel.modify ⟨W, List.prefix_rfl, { renamed with frames := defined }, trivial⟩
  | none => exact Parallel.throw ⟨.same _, W, List.prefix_rfl, renamed⟩

/-- A reference is renamed by the mark of the frame it is looked up in.  Without a distance this is
the frame of the globals, which is not marked. -/
theorem simulates_lookUp (chain : W.Chain f marks) {name : Token} (fits : ρ.Fits name)
    (hops : Option Nat) :
    Simulates ρ W (lookUp f name hops) (lookUp f (ρ.token (leadsToMark marks hops) name) hops)
      (Value.Renamed ρ) := by
  cases hops with
  | none =>
    rw [leadsToMark, Renaming.token_false]
    exact simulates_getGlobal chain name
  | some hops =>
    unfold lookUp
    rw [leadsToMark, Renaming.token_lexeme fits.fresh]
    exact simulates_getAt chain hops fits.fresh

/-- The receiver may also be looked up without a distance, where neither side has one. -/
theorem simulates_lookUp_this (chain : W.Chain f marks) {keyword : Token}
    (called : keyword.lexeme = "this") (hops : Option Nat) :
    Simulates ρ W (lookUp f keyword hops) (lookUp f keyword hops) (Value.Renamed ρ) := by
  cases hops with
  | none => exact simulates_getGlobal chain keyword
  | some hops =>
    unfold lookUp
    rw [called]
    exact simulates_getAt_this chain hops

/-- An assignment that was resolved goes to a frame whose mark is known; one that was not goes to
the globals. -/
theorem simulates_store (chain : W.Chain f marks) {name : Token} (fits : ρ.Fits name)
    {v v' : Value} (values : v.Renamed ρ W v') (hops : Option Nat) :
    Simulates ρ W (store f name v hops) (store f (ρ.token (leadsToMark marks hops) name) v' hops)
      fun _ _ _ => True := by
  cases hops with
  | none =>
    rw [leadsToMark, Renaming.token_false]
    exact simulates_assign_globals chain name values
  | some hops =>
    unfold store
    rw [leadsToMark, Renaming.token_lexeme fits.fresh]
    exact simulates_assignAt chain hops fits.fresh values

/-- Parameters are renamed by the mark of the frame they are bound in.  The induction is on the
parameters, with the arguments growing in step. -/
theorem simulates_bindParams {params : List Token} (fit : ∀ param ∈ params, ρ.Fits param)
    {arguments arguments' : List Value} (chain : W.Chain f marks)
    (values : List.Forall₂ (Value.Renamed ρ W) arguments arguments') :
    Simulates ρ W (bindParams f params arguments)
      (bindParams f (params.map (ρ.token (marks.headD false))) arguments')
      fun _ _ _ => True := by
  induction params generalizing W arguments arguments' with
  | nil => exact .pure trivial
  | cons param params ih =>
    cases values with
    | nil => exact .pure trivial
    | cons value values =>
      have first := simulates_define_token chain (fit param (List.mem_cons_self ..)) value
      refine first.bind fun W' _ _ grows _ => ?_
      exact ih (fun other mem => fit other (List.mem_cons_of_mem _ mem)) (chain.mono grows)
        (values.imp fun _ _ same => same.mono grows)

end Frames

/-! ### Functions, classes and instances -/

section Objects

variable {f : FrameId} {marks : List Bool}

/-- Numbers are given out in step, so that functions and classes have the same identities. -/
theorem simulates_freshId : Simulates ρ W freshId freshId fun _ id id' => id' = id := by
  intro m m' renamed
  exact Parallel.modifyGet ⟨W, List.prefix_rfl,
    { renamed with made := congrArg (· + 1) renamed.made }, renamed.made⟩

/-- Functions go with each other if their declarations are renamed along the marks of the frames
around them. -/
theorem simulates_newClosure (around : List Bool) {decl decl' : FunDecl}
    (chain : W.Chain f marks) (formed : decl.Formed ρ.Fits)
    (renamed : decl.Renamed ρ (around ++ marks) decl') (isInitializer : Bool) :
    Simulates ρ W (newClosure decl f isInitializer) (newClosure decl' f isInitializer)
      fun W' => Closure.Renamed ρ W' around := by
  refine simulates_freshId.bind ?_
  rintro W' id _ grows rfl
  exact .pure ⟨rfl, rfl, rfl, formed, marks, chain.mono grows, renamed⟩

/-- Instances have the same numbers, and classes that go with each other.  Both machines have as
many instances before, which gives the number, and the new ones have no fields. -/
theorem simulates_newInstance {c c' : Class} (same : c.Renamed ρ W c') :
    Simulates ρ W (newInstance c) (newInstance c')
      fun W' i i' => Value.Renamed ρ W' (.object i) (.object i') := by
  intro m m' renamed
  refine Parallel.modifyGet ⟨W, List.prefix_rfl, ?_, ?_⟩
  · refine { renamed with instances := ?_, fields := fun i => ?_ }
    · rw [Array.size_push, Array.size_push, renamed.instances]
    · dsimp only
      rw [Array.getElem?_push, Array.getElem?_push, renamed.instances]
      split
      · exact .some .empty
      · exact renamed.fields i
  · dsimp only
    rw [renamed.instances]
    exact .object same

/-- A method gets its frame with `this` and becomes a function.  The frame is not marked, as `this`
is not renamed. -/
theorem simulates_bindThis {c c' : Closure} (same : c.RenamedMethod ρ W c') {v v' : Value}
    (receivers : v.Renamed ρ W v') :
    Simulates ρ W (bindThis c v) (bindThis c' v') fun W' => Closure.Renamed ρ W' [] := by
  obtain ⟨marks, chain, renamed⟩ := same.decl
  unfold bindThis
  rw [same.frame, same.isInitializer]
  refine (simulates_newFrame chain false).bind ?_
  rintro W₁ g _ grows ⟨rfl, inner⟩
  refine (simulates_define_this inner (receivers.mono grows)).bind ?_
  intro W₂ _ _ grows' _
  exact simulates_newClosure [] (inner.mono grows') same.formed renamed c.isInitializer

/-- A bound method is a value on both sides. -/
theorem simulates_boundMethod {c c' : Closure} (same : c.RenamedMethod ρ W c') {v v' : Value}
    (receivers : v.Renamed ρ W v') :
    Simulates ρ W (do return .closure (← bindThis c v)) (do return .closure (← bindThis c' v'))
      (Value.Renamed ρ) :=
  (simulates_bindThis same receivers).bind fun _ _ _ _ bound => .pure (.closure bound)

/-- Fields keep their names.  Where there is none, both sides find methods that go with each other,
and bind them to instances that do. -/
theorem simulates_getProperty {id : Nat} {c c' : Class} (same : c.Renamed ρ W c') (name : Token) :
    Simulates ρ W (getProperty ⟨id, c⟩ name) (getProperty ⟨id, c'⟩ name) (Value.Renamed ρ) := by
  intro m m' renamed
  refine Parallel.look ?_
  have fields : (m.fieldsOf ⟨id, c⟩).Matches (Equiv.refl String) (Value.Renamed ρ W)
      (m'.fieldsOf ⟨id, c'⟩) := renamed.fieldsOf rfl
  have field := fields.get? name.lexeme
  rw [Equiv.refl_apply] at field
  generalize (m.fieldsOf ⟨id, c⟩).get? name.lexeme = here at field
  generalize (m'.fieldsOf ⟨id, c'⟩).get? name.lexeme = there at field
  cases field with
  | some values => exact Parallel.pure ⟨W, List.prefix_rfl, renamed, values⟩
  | none =>
    have method := same.findMethod? name.lexeme
    dsimp only
    generalize c.findMethod? name.lexeme = found at method
    generalize c'.findMethod? name.lexeme = found' at method
    cases method with
    | some methods => exact simulates_boundMethod methods (.object same) m m' renamed
    | none => exact Parallel.throw ⟨.same _, W, List.prefix_rfl, renamed⟩

/-- A field is set on instances of the same number, under the same name, as no renaming touches
fields. -/
theorem simulates_setProperty {i i' : Instance} (same : i'.id = i.id) (name : String)
    {v v' : Value} (values : v.Renamed ρ W v') :
    Simulates ρ W (setProperty i name v) (setProperty i' name v') fun _ _ _ => True := by
  refine .modify fun m m' renamed => { renamed with instances := ?_, fields := fun j => ?_ }
  · rw [Array.size_modify, Array.size_modify, renamed.instances]
  · have fields := renamed.fields j
    dsimp only
    rw [Array.getElem?_modify, Array.getElem?_modify, same]
    generalize m.fields[j]? = here at fields
    generalize m'.fields[j]? = there at fields
    split
    · cases fields with
      | some matched => exact .some (matched.put name values)
      | none => exact .none
    · exact fields

/-- A property of anything but an instance is the same error on both sides. -/
theorem simulates_propertyOf {v v' : Value} (same : v.Renamed ρ W v') (name : Token) :
    Simulates ρ W (propertyOf v name) (propertyOf v' name) (Value.Renamed ρ) := by
  cases same with
  | object same => exact simulates_getProperty same name
  | _ => exact .fail rfl rfl

/-- A method of the superclass is found through two keywords, which no renaming touches.  The class
that is found under the first one has the same method on both sides, under the same name. -/
theorem simulates_superMethod (chain : W.Chain f marks) (method : Token) (hops : Option Nat) :
    Simulates ρ W (superMethod f method hops) (superMethod f method hops) (Value.Renamed ρ) := by
  cases hops with
  | none => exact .throw (.same _)
  | some hops =>
    refine (simulates_getAt_super chain hops).bind fun W₁ parent parent' grows parents => ?_
    refine (simulates_getAt_this (chain.mono grows) _).bind fun W₂ _ _ grows' receivers => ?_
    cases parents.mono grows' with
    | @cls c c' same =>
      have found := same.findMethod? method.lexeme
      dsimp only
      generalize c.findMethod? method.lexeme = here at found
      generalize c'.findMethod? method.lexeme = there at found
      cases found with
      | some methods => exact simulates_boundMethod methods receivers
      | none => exact .fail rfl rfl
    | _ => exact .throw (.same _)

/-! ### Classes -/

/-- The methods of a class have the same names on both sides, and are matched by them.  The
induction takes the methods made so far along. -/
theorem simulates_makeMethods (chain : W.Chain f marks) {decls decls' : List FunDecl}
    (formed : FunDecl.AllFormed ρ.Fits decls)
    (renamed : FunDecl.AllRenamed ρ (false :: marks) decls decls')
    {methods methods' : Bindings Closure}
    (matched : methods.Matches (Equiv.refl String) (Closure.RenamedMethod ρ W) methods') :
    Simulates ρ W (makeMethods f decls methods) (makeMethods f decls' methods')
      fun W' => Bindings.Matches (Equiv.refl String) (Closure.RenamedMethod ρ W') := by
  induction decls generalizing W decls' methods methods' with
  | nil =>
    cases renamed
    exact .pure matched
  | cons decl rest ih =>
    obtain ⟨decl', rest', rfl, first, others⟩ := renamed
    unfold makeMethods
    rw [first.same.1]
    refine (simulates_newClosure [false] chain formed.1 first _).bind ?_
    intro W' method method' grows same
    exact ih (chain.mono grows) formed.2 others
      ((matched.mono fun _ _ older => older.mono grows).put _ same)

/-- The class that a declaration makes, before its name is bound to it, and the number of its
methods. -/
def builtClass (frame : FrameId) (name : String) (superclass : Option Class)
    (decls : List FunDecl) : Eval (Class × Nat) := do
  let inner ← methodFrame frame superclass
  let methods ← makeMethods inner decls {}
  let made ← newClass name superclass methods
  pure (made, methods.entries.length)

/-- Declaring a class is binding its name, building it, and assigning it to that name.  The middle
part does not mention the name, which is what the two sides may differ in. -/
theorem makeClass_eq (frame : FrameId) (name : Token) (superclass : Option Class)
    (decls : List FunDecl) :
    makeClass frame name superclass decls = (do
      define frame name.lexeme .nil
      let built ← builtClass frame name.lexeme superclass decls
      assign frame name (.cls built.1)
      note (.definedClass name.lexeme (superclass.map Class.name) built.2)) := by
  simp only [makeClass, builtClass, bind_assoc, pure_bind]

/-- The frame of the methods is the one around the class, or a new one that holds `super`.  The new
frame is not marked: no variable is declared in it. -/
theorem simulates_methodFrame (chain : W.Chain f marks) {superclass superclass' : Option Class}
    (parents : Option.Rel (Class.Renamed ρ W) superclass superclass') :
    Simulates ρ W (methodFrame f superclass) (methodFrame f superclass')
      fun W' g g' => g' = g ∧ W'.Chain g (superclass.elim marks fun _ => false :: marks) := by
  cases parents with
  | none => exact .pure ⟨rfl, chain⟩
  | some same =>
    refine (simulates_newFrame chain false).bind ?_
    rintro W₁ g _ grows ⟨rfl, inner⟩
    refine (simulates_define_super inner (.cls (same.mono grows))).bind ?_
    intro W₂ _ _ grows' _
    exact .pure ⟨rfl, inner.mono grows'⟩

/-- Classes have the same numbers, and parents and methods that go with each other, under the same
names. -/
theorem simulates_newClass (name : String) {superclass superclass' : Option Class}
    (parents : Option.Rel (Class.Renamed ρ W) superclass superclass')
    {methods methods' : Bindings Closure}
    (matched : methods.Matches (Equiv.refl String) (Closure.RenamedMethod ρ W) methods') :
    Simulates ρ W (newClass name superclass methods) (newClass name superclass' methods')
      (Class.Renamed ρ) := by
  refine simulates_freshId.bind ?_
  rintro W' id _ grows rfl
  have each := matched.mono fun _ _ older => older.mono grows
  cases parents with
  | none => exact .pure (.plain each)
  | some same => exact .pure (.derived (same.mono grows) each)

/-- Building a class is in step: the frames of its methods are not marked, since they hold keywords
only. -/
theorem simulates_builtClass (chain : W.Chain f marks) (name : String)
    {superclass superclass' : Option Class}
    (parents : Option.Rel (Class.Renamed ρ W) superclass superclass') {decls decls' : List FunDecl}
    (formed : FunDecl.AllFormed ρ.Fits decls)
    (renamed : FunDecl.AllRenamed ρ (false :: superclass.elim marks fun _ => false :: marks)
      decls decls') :
    Simulates ρ W (builtClass f name superclass decls) (builtClass f name superclass' decls')
      fun W' built built' => built.1.Renamed ρ W' built'.1 := by
  refine (simulates_methodFrame chain parents).bind ?_
  rintro W₁ g _ grows₁ ⟨rfl, inner⟩
  refine (simulates_makeMethods inner formed renamed .empty).bind ?_
  intro W₂ methods methods' grows₂ matched
  have parents₂ := Bindings.rel_mono parents fun _ _ same => same.mono (grows₁.trans grows₂)
  exact (simulates_newClass name parents₂ matched).bind fun _ _ _ _ same => .pure same

/-- A class is bound to its name where it is declared: the name is looked up in the frame that has
just got it.  So the lookup needs no chain outward, and the name is one that the renaming keeps. -/
theorem simulates_makeClass (chain : W.Chain f marks) {name : Token} (fits : ρ.Fits name)
    (keeps : ρ.Keeps (marks.headD false) name) {superclass superclass' : Option Class}
    (parents : Option.Rel (Class.Renamed ρ W) superclass superclass') {decls decls' : List FunDecl}
    (formed : FunDecl.AllFormed ρ.Fits decls)
    (renamed : FunDecl.AllRenamed ρ (false :: superclass.elim marks fun _ => false :: marks)
      decls decls') :
    Simulates ρ W (makeClass f name superclass decls) (makeClass f name superclass' decls')
      fun _ _ _ => True := by
  have kept := keeps.perm fits.fresh
  have defined := simulates_define chain name.lexeme (.nil : Value.Renamed ρ W .nil .nil)
  rw [kept] at defined
  intro m m' machines
  rw [makeClass_eq, makeClass_eq]
  refine (defined m m' machines).and_run.bind ?_
  rintro ⟨⟩ m₁ ⟨⟩ m₁' ⟨ranDefine, W₁, grows₁, machines₁, -⟩
  have built := simulates_builtClass (chain.mono grows₁) name.lexeme
    (Bindings.rel_mono parents fun _ _ same => same.mono grows₁) formed renamed
  refine (built.lift grows₁ machines₁).and_run.bind ?_
  rintro c m₂ c' m₂' ⟨ranBuilt, W₂, grows₂, machines₂, same⟩
  have holds : (m₂.frames.local? f name.lexeme).isSome = true := by
    obtain ⟨enclosing, there⟩ := chain.head
    have bound : f < m.frames.size := by
      rw [machines.frames.size]
      exact (List.getElem?_eq_some_iff.mp there).1
    refine holds_after_define ranDefine bound (binds_methodFrame f superclass ?_ : Binds f [] _)
      ranBuilt
    intro g inner more
    refine (binds_makeMethods g decls _).bind fun methods => ?_
    exact Binds.bind (binds_freshId.bind fun _ => .pure _) fun made => .pure _
  refine (parallel_assign machines₂ (chain.mono grows₂) kept holds (.cls same)).bind ?_
  intro _ m₃ _ m₃' machines₃
  exact (simulates_note _ _).lift grows₂ machines₃

/-- What is taken for a superclass is a class on both sides, or the same error on the same line. -/
theorem simulates_requireClass {name name' : Token} (line : name'.line = name.line) {v v' : Value}
    (same : v.Renamed ρ W v') :
    Simulates ρ W (requireClass name v) (requireClass name' v') (Class.Renamed ρ) := by
  cases same with
  | cls same => exact .pure same
  | _ => exact .fail line rfl

end Objects

end Execution
end Arbor
