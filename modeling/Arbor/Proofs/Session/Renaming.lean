import Arbor.Proofs.Execution.Renaming
import Arbor.Proofs.Grammar.Respelling
import Arbor.Proofs.Scope.Distinct
import Arbor.Proofs.Scope.Renaming
import Arbor.Proofs.Session.Split

/-!
# Texts with a local variable renamed

A local variable of a program can be given any name that does not occur in its text.  The three
stages carry the renaming on, each in its own terms.  The text with the variable respelled reads as
the renamed tree, since reading looks at the kinds of tokens; the renamed tree resolves to itself,
since a name that does not occur neither hides a variable nor is hidden; and it runs in step with
the original, since a reference finds its frame by its distance.

## Main definitions

* `Session.SameRun`: two runs that cannot be told apart, but by the name of a renamed variable in
  the fault that it is missing.

## Main statements

* `Session.local_names_unobserved`: the names of local variables do not matter.
-/

namespace Arbor

variable {ρ : Renaming}

/-- Verdicts that are the same but for the name of a renamed variable that is missing. -/
inductive Verdict.Renamed (ρ : Renaming) : Verdict → Verdict → Prop
  | same (verdict : Verdict) : Renamed ρ verdict verdict
  | missing (distance : Int) :
      Renamed ρ (.fault (.nameMissing ρ.old distance)) (.fault (.nameMissing ρ.new distance))

/-! ### Machines -/

namespace Machine

/-- The globals, with their values as they are printed. -/
def shownGlobals (m : Machine) : List (String × String) :=
  m.globalBindings.entries.map fun entry => (entry.1, entry.2.shown)

/-- Nothing is renamed among the globals.  So these are shown under their old names, and their
values are shown alike. -/
theorem Renamed.shownGlobals {W : Marking} {m m' : Machine} (renamed : m.Renamed ρ W m')
    (there : W[globals]? = some ⟨none, false⟩) : m'.shownGlobals = m.shownGlobals := by
  obtain ⟨b, b', cell, cell', matched⟩ := renamed.frames.cells globals _ there
  have here : m.globalBindings = b := by
    unfold globalBindings Frames.bindings
    rw [cell]
  have here' : m'.globalBindings = b' := by
    unfold globalBindings Frames.bindings
    rw [cell']
  unfold Machine.shownGlobals
  rw [here, here']
  exact matched.map_entries Renaming.perm_false fun _ _ same => same.shown

/-- A machine that has run nothing goes with itself.  There is one frame, that of the globals, and
no mark is put on it. -/
theorem renamed_fresh (ρ : Renaming) (clock : Clock) (level : Nat) :
    (fresh clock level).Renamed ρ [⟨none, false⟩] (fresh clock level) := by
  refine ⟨⟨rfl, rfl, fun f mark there => ?_⟩, rfl, fun i => ?_, rfl, rfl, rfl, rfl⟩
  · cases f with
    | zero =>
      cases there
      exact ⟨_, _, rfl, rfl, .cons ⟨rfl, .native _⟩ .nil⟩
    | succ f => cases there
  · exact .none

end Machine

/-! ### Resolving -/

namespace Program

open Scope

variable {globals : List String} {p q : Program} {way : List Nat}

/-- A program that was resolved without a report, with a variable renamed, is the same but for that
variable. -/
theorem allRenamed_of_resolve (outcome : (p.resolve globals).outcome = .ok q)
    (silent : (p.resolve globals).reports = #[]) (formed : Stmt.AllFormed ρ.Fits p.body)
    (declares : q.DeclaresAt ρ.old way) :
    Stmt.AllRenamed ρ [] q.body (q.renameAt ρ way).body := by
  obtain ⟨s, ran, reports, -⟩ := run_of_resolve outcome
  have distinct := stmts_distinct _ _ formed ⟨ran, reports.trans silent⟩
  exact renamed_renameAt (formed_of_resolve outcome formed) distinct declares

/-- It resolves to itself, and again nothing is reported.  The new name is in no token of the tree,
so that it captures no reference and clashes with no declaration. -/
theorem resolve_renameAt (outcome : (p.resolve globals).outcome = .ok q)
    (silent : (p.resolve globals).reports = #[]) (formed : Stmt.AllFormed ρ.Fits p.body)
    (declares : q.DeclaresAt ρ.old way) :
    ((q.renameAt ρ way).resolve globals).outcome = .ok (q.renameAt ρ way) ∧
      ((q.renameAt ρ way).resolve globals).reports = #[] := by
  obtain ⟨s, ran, reports, -⟩ := run_of_resolve outcome
  have same : State.Renamed ρ [] (.initial globals) (.initial globals) := ⟨.nil, rfl, fun _ => rfl⟩
  obtain ⟨t, again, after⟩ := stmts_renamed {} p.body formed same ran
    (allRenamed_of_resolve outcome silent formed declares)
  rw [resolve_of_run again]
  exact ⟨rfl, after.silent (reports.trans silent)⟩

end Program

namespace Session

variable {s s' : Session} {text : String} {q : Program} {way : List Nat}

/-! ### Running -/

/-- Two runs that cannot be told apart, but by the name of a renamed variable that is missing. -/
structure SameRun (ρ : Renaming) (ran ran' : Session × Verdict) : Prop where
  output : ran'.1.machine.output = ran.1.machine.output
  reports : ran'.1.reports = ran.1.reports
  globals : ran'.1.machine.shownGlobals = ran.1.machine.shownGlobals
  verdict : ran.2.Renamed ρ ran'.2

/-- Renamed statements are executed in step.  A step that stops does so on both sides, and only a
fault about a missing name would show the new name. -/
theorem sameRun_interpret {W : Marking} (machines : s.machine.Renamed ρ W s'.machine)
    (reports : s'.reports = s.reports) (there : W[Machine.globals]? = some ⟨none, false⟩)
    {ss ss' : List Stmt} (formed : Stmt.AllFormed ρ.Fits ss) (renamed : Stmt.AllRenamed ρ [] ss ss')
    (limits : Limits) : SameRun ρ (s.interpret limits ss) (s'.interpret limits ss') := by
  have both := Execution.simulates_runAll limits.turns limits.room (.globals there) formed renamed
    _ _ machines
  unfold interpret
  cases ran : (Execution.runAll limits.turns limits.room ss).run s.machine with
  | ok u m =>
    obtain ⟨_, m', ran', W', grows, after, -⟩ := both.of_ok ran
    rw [ran']
    exact ⟨after.output, reports, after.shownGlobals (Marking.getElem?_of_grows grows there),
      .same _⟩
  | error abort m =>
    obtain ⟨abort', m', ran', aborts, W', grows, after⟩ := both.of_error ran
    rw [ran']
    have shown := after.shownGlobals (Marking.getElem?_of_grows grows there)
    cases aborts with
    | missing distance => exact ⟨after.output, reports, shown, .missing distance⟩
    | same =>
      cases abort with
      | error error =>
        exact ⟨after.output, congrArg (Array.push · (.runtime error)) reports, shown, .same _⟩
      | fault | tooDeep | outOfTurns => exact ⟨after.output, reports, shown, .same _⟩

/-- What is noted of a run cannot be seen in its globals, its output or its reports. -/
theorem SameRun.noted {ran ran' : Session × Verdict} (same : SameRun ρ ran ran') :
    SameRun ρ (ran.1.ended ran.2, ran.2) (ran'.1.ended ran'.2, ran'.2) := by
  have untouched := untouched_ended ran.1 ran.2
  have untouched' := untouched_ended ran'.1 ran'.2
  refine ⟨?_, ?_, ?_, same.verdict⟩
  · exact untouched'.output.trans (same.output.trans untouched.output.symm)
  · rw [reports_ended, reports_ended]
    exact same.reports
  · have globals := same.globals
    unfold Machine.shownGlobals Machine.globalBindings at globals ⊢
    rwa [untouched.frames, untouched'.frames]

theorem Accepts.reports_poised (accepts : s.Accepts text) :
    (s.poised text).reports = s.reports := by
  change s.reports ++ (Program.ofText text).reports ++ (s.resolved text).reports = s.reports
  rw [accepts.read, accepts.resolved, Array.append_empty, Array.append_empty]

/-- Two sessions that were made of one without touching its machine go with each other, if the
machine goes with itself. -/
theorem renamed_of_untouched {W : Marking} {t t' : Session}
    (machines : s.machine.Renamed ρ W s.machine) (untouched : Untouched s t)
    (untouched' : Untouched s t') :
    t.machine.Renamed ρ W t'.machine := by
  obtain ⟨frames, fields, made, output, clock, readings⟩ := untouched
  obtain ⟨frames', fields', made', output', clock', readings'⟩ := untouched'
  refine ⟨?_, ?_, ?_, made'.trans made.symm, output'.trans output.symm, clock'.trans clock.symm,
    readings'.trans readings.symm⟩
  · rw [frames, frames']
    exact machines.frames
  · rw [fields, fields']
  · rw [fields, fields']
    exact machines.fields

/-- Accepted texts that resolve to a tree and to the renamed tree run alike. -/
theorem sameRun_runText {text' : String} {q' : Program} {clock : Clock} {level : Nat}
    (accepts : (start clock level).Accepts text) (accepts' : (start clock level).Accepts text')
    (outcome : ((start clock level).resolved text).outcome = .ok q)
    (outcome' : ((start clock level).resolved text').outcome = .ok q')
    (formed : Stmt.AllFormed ρ.Fits q.body) (renamed : Stmt.AllRenamed ρ [] q.body q'.body)
    (limits : Limits) :
    SameRun ρ ((start clock level).runText limits text)
      ((start clock level).runText limits text') := by
  have clean := hadError_start clock level
  rw [runText_of_accepts accepts clean, runText_of_accepts accepts' clean, outcome, outcome']
  have machines := renamed_of_untouched (Machine.renamed_fresh ρ clock level)
    (untouched_poised (start clock level) text) (untouched_poised (start clock level) text')
  have reports := accepts'.reports_poised.trans accepts.reports_poised.symm
  exact (sameRun_interpret machines reports rfl formed renamed limits).noted

/-- A variable of the program a text reads as is called by a word that variables can be called. -/
theorem isIdentifier_of_declaresAt {name : String} (outcome : (s.resolved text).outcome = .ok q)
    (declares : q.DeclaresAt name way) : Token.IsIdentifier name := by
  have formed := Program.formed_of_resolve outcome
    (formed_ofText_of fun _ => Scan.isIdentifier_of_mem)
  obtain ⟨t, kind, identifier, rfl⟩ := declares.exists_token formed
  exact identifier kind

/-- The names of local variables do not matter.  In a text that is accepted, a local variable, which
is a parameter or is declared by a `var` in a block or a function, can be given any name that does
not occur in the text.  There is a text that has the new name in the declaration and in the
references that are resolved to it, in all other pieces is the same, and reads as the renamed tree.
Whatever text reads as that tree is accepted and resolved to it.  Whatever a run is allowed, it
prints what the original prints, the same is reported, it comes to the same verdict, and it leaves
the same globals with the same printed values; only the fault that the variable is missing tells of
it by its new name. -/
theorem local_names_unobserved {clock : Clock} {level : Nat} {text : String} {q : Program}
    {way : List Nat} {old new : String} (accepts : (start clock level).Accepts text)
    (outcome : ((start clock level).resolved text).outcome = .ok q)
    (declares : q.DeclaresAt old way) (identifier : Token.IsIdentifier new)
    (fresh : ∀ t ∈ (Scan.ofText text).tokens, t.lexeme ≠ new) :
    ∃ ρ : Renaming, ρ.old = old ∧ ρ.new = new ∧
      (∃ text' : String,
        List.Forall₂ (Piece.Respelled ρ) (Piece.split text.toList) (Piece.split text'.toList) ∧
        Program.ofText text' = ⟨(q.renameAt ρ way).unresolved, #[]⟩) ∧
      ∀ text', Program.ofText text' = ⟨(q.renameAt ρ way).unresolved, #[]⟩ →
        (start clock level).Accepts text' ∧
        ((start clock level).resolved text').outcome = .ok (q.renameAt ρ way) ∧
        ∀ limits, SameRun ρ ((start clock level).runText limits text)
          ((start clock level).runText limits text') := by
  let ρ : Renaming := ⟨old, new, isIdentifier_of_declaresAt outcome declares, identifier⟩
  have fits : ∀ t ∈ (Scan.ofText text).tokens, ρ.Fits t :=
    fun t mem => ⟨Scan.spelled text t mem, fresh t mem⟩
  have formed := formed_ofText_of fits
  have formed' := Program.formed_of_resolve outcome formed
  have renamed := Program.allRenamed_of_resolve outcome accepts.resolved formed declares
  refine ⟨ρ, rfl, rfl, Program.exists_reading accepts.read (Program.unresolved_of_resolve outcome)
    formed' renamed, fun text' read => ?_⟩
  obtain ⟨itself, silent⟩ := Program.resolve_renameAt outcome accepts.resolved formed declares
  have again : (start clock level).resolved text'
      = (q.renameAt ρ way).resolve (start clock level).machine.globalNames := by
    unfold Session.resolved
    rw [read]
    exact Program.resolve_unresolved _ _
  have accepts' : (start clock level).Accepts text' := ⟨by rw [read], by rw [again, silent]⟩
  have outcome' : ((start clock level).resolved text').outcome = .ok (q.renameAt ρ way) := by
    rw [again, itself]
  exact ⟨accepts', outcome', sameRun_runText accepts accepts' outcome outcome' formed' renamed⟩

theorem resolved_hidden_variable :
    (match ((start (.ticking 0) 0).resolved
        "{ var a = nil; fun f() { return a; } { var a = true; print f(); } }").outcome with
      | .ok ⟨[.block (.varDecl name _ :: _)]⟩ => name.lexeme == "a"
      | _ => false) = true := by
  decide +kernel

/-- A variable that a function holds on to is renamed, and the variable of the same name that hides
it where the function is called is not. -/
theorem hidden_variable_renamed :
    let text := "{ var a = nil; fun f() { return a; } { var a = true; print f(); } }"
    (start (.ticking 0) 0).Accepts text ∧
      ∃ (ρ : Renaming) (text' : String), ρ.old = "a" ∧ ρ.new = "b" ∧
        List.Forall₂ (Piece.Respelled ρ) (Piece.split text.toList) (Piece.split text'.toList) ∧
        (start (.ticking 0) 0).Accepts text' ∧
        ((start (.ticking 0) 0).runText {} text').1.machine.output = #["nil"] := by
  have read : (Program.ofText
      "{ var a = nil; fun f() { return a; } { var a = true; print f(); } }").reports = #[] :=
    Array.size_eq_zero_iff.mp (by decide +kernel)
  have silent : ((start (.ticking 0) 0).resolved
      "{ var a = nil; fun f() { return a; } { var a = true; print f(); } }").reports = #[] :=
    Array.size_eq_zero_iff.mp (by decide +kernel)
  have shape := resolved_hidden_variable
  have fresh : ((Scan.ofText
      "{ var a = nil; fun f() { return a; } { var a = true; print f(); } }").tokens.all
        fun t => decide (t.lexeme ≠ "b")) = true := by decide +kernel
  have prints : ((start (.ticking 0) 0).runText {}
      "{ var a = nil; fun f() { return a; } { var a = true; print f(); } }").1.machine.output
        = #["nil"] := by decide +kernel
  -- the text is made opaque, or comparing terms would run it
  generalize "{ var a = nil; fun f() { return a; } { var a = true; print f(); } }" = text at *
  dsimp only
  split at shape
  · next name initializer rest outcome =>
    have declares : Program.DeclaresAt "a" ⟨[.block (.varDecl name initializer :: rest)]⟩ [0] :=
      .inr ⟨name, initializer, List.mem_cons_self, beq_iff_eq.mp shape⟩
    have identifier : Token.IsIdentifier "b" := ⟨⟨'b', [], rfl, rfl, nofun⟩, by decide +kernel⟩
    obtain ⟨ρ, old, new, ⟨text', respelled, reads⟩, alike⟩ := local_names_unobserved ⟨read, silent⟩
      outcome declares identifier fun t mem => of_decide_eq_true (Array.all_eq_true'.mp fresh t mem)
    obtain ⟨accepts, -, runs⟩ := alike text' reads
    exact ⟨⟨read, silent⟩, ρ, text', old, new, respelled, accepts, (runs {}).output.trans prints⟩
  · cases shape

end Session
end Arbor
