import Arbor.Command
import Arbor.Proofs.Execution.Unobserved
import Arbor.Proofs.Session.Moments
import Arbor.Proofs.Tree.RoundTrip

/-!
# Emitted trees

Storing the tree of a script and running the stored tree comes to the same as running the script.  The
tree that is loaded is the one that the script was read as, and its references get the distances that
they get in the script, since resolution goes by names alone.  The two runs differ in one event of the
trace, that the script was scanned, which no program can observe.

That the text layer of JSON reads back what it wrote is taken as given, for the tree that is stored.

## Main definitions

* `Json.Restored`: a value that is read back as it was written.

## Main statements

* `Command.emitted_runs_like_script`: when a tree is stored, and what running it comes to.
-/

namespace Arbor

/-- A value that, written to a file and read from it again, is the value that it was. -/
def Json.Restored (json : Json) : Prop :=
  Json.read? (Command.decode json.indented) = some json

namespace Session

/-- A program runs like the program that it was before resolution. -/
theorem run_unresolved (limits : Limits) (s : Session) (p : Program) :
    s.run limits p.unresolved = s.run limits p := by
  have size : p.unresolved.body.length = p.body.length := Stmt.length_allUnresolved p.body
  unfold run
  dsimp only
  rw [size, Program.resolve_unresolved]

/-- A text on which the parser has nothing to report runs like the program that it is read as. -/
theorem runText_of_read {limits : Limits} {s : Session} {text : String}
    (read : (Program.ofText text).reports = #[]) (clean : s.hadError = false) :
    s.runText limits text =
      ((s.note (.scanned (Scan.ofText text).size)).addReports (Program.ofText text).reports).run
        limits (Program.ofText text).program := by
  have opened : ((s.note (.scanned (Scan.ofText text).size)).addReports
      (Program.ofText text).reports).hadError = false :=
    hadError_addReports_empty clean read
  unfold runText
  exact if_neg (Bool.eq_false_iff.mp opened)

/-- The stored tree of a text runs like the text, as far as anybody can observe.  It is loaded as
the program before resolution, and resolving overwrites whatever distances there are. -/
theorem alike_runTree (clock : Clock) (level other : Nat) {text : String} (limits : Limits)
    (read : (Program.ofText text).reports = #[]) :
    Alike (fun _ _ => True) #[] ((start clock level).runText limits text).1
        ((start clock other).runTree limits (Program.ofText text).program.toTree).1 ∧
      ((start clock other).runTree limits (Program.ofText text).program.toTree).2
        = ((start clock level).runText limits text).2 := by
  have scanned : Alike (fun _ _ => True) #[] (((start clock level).note
      (.scanned (Scan.ofText text).size)).addReports (Program.ofText text).reports)
      (start clock other) := by
    rw [read]
    exact ⟨⟨rfl, rfl, rfl, rfl, rfl, rfl, trivial⟩, rfl⟩
  rw [runText_of_read read (hadError_start clock level)]
  unfold runTree
  rw [Program.ofTree_toTree (formed_ofText text)]
  dsimp only
  rw [run_unresolved]
  exact scanned.run Trace.uniform_any limits _

end Session

namespace Command

open Session

/-- What a command shows of a run depends on what can be observed of it: the output, the reports and
the verdict, and not on the trace. -/
theorem performedRun_congr {v w : Nat} {s t : Session} (alike : Alike (fun _ _ => True) #[] s t)
    (verdict : Verdict) :
    (performedRun w t verdict).stdout = (performedRun v s verdict).stdout ∧
      (performedRun w t verdict).stderr = (performedRun v s verdict).stderr ∧
      (performedRun w t verdict).status = (performedRun v s verdict).status := by
  have output : t.machine.output = s.machine.output := by
    rw [alike.machine.output, Array.empty_append]
  refine ⟨?_, ?_, rfl⟩
  · unfold performedRun Session.printed Machine.printed
    rw [output]
  · unfold performedRun
    rw [alike.reports]

section Emitted

variable (path : FilePath) (contents : String)

/-- Emitting never comes to executing: it is one and the same whatever a run would be allowed and
whatever the time is. -/
theorem perform_emitAst (limits : Limits) (clock : Clock) :
    (emitAst path).perform limits clock (some contents) = performEmit path (decode contents) :=
  rfl

theorem perform_ast (w : Nat) (limits : Limits) (clock : Clock) :
    (ast path w).perform limits clock (some contents)
      = performAst limits clock w (decode contents) :=
  rfl

theorem perform_script (v : Nat) (limits : Limits) (clock : Clock) :
    (script path v).perform limits clock (some contents)
      = performText limits clock v (decode contents) :=
  rfl

theorem performEmit_of_read {text : String} (read : (Program.ofText text).reports = #[]) :
    performEmit path text =
      { status := .ok 0
        stdout := (path.addToName ".ast.json").text ++ "\n"
        written := [(path.addToName ".ast.json",
          (Program.ofText text).program.toTree.toJson.indented)] } := by
  unfold performEmit
  exact if_pos (Array.isEmpty_iff.mpr read)

theorem performEmit_of_reported {text : String} (reported : (Program.ofText text).reports ≠ #[]) :
    performEmit path text =
      { status := .ok 1, stderr := reportText (Program.ofText text).reports } := by
  unfold performEmit
  exact if_neg fun empty => reported (Array.isEmpty_iff.mp empty)

/-- A tree that came back from its text as it was written runs like its script: the same is printed,
the same is reported, and the status is the same, whatever either run is asked to trace. -/
theorem performAst_of_restored {v w : Nat} {text : String} (limits : Limits) (clock : Clock)
    (read : (Program.ofText text).reports = #[])
    (restored : (Program.ofText text).program.toTree.toJson.Restored) :
    let stored := performAst limits clock w
      (decode (Program.ofText text).program.toTree.toJson.indented)
    let direct := performText limits clock v text
    stored.stdout = direct.stdout ∧ stored.stderr = direct.stderr ∧
      stored.status = direct.status := by
  obtain ⟨alike, same⟩ := alike_runTree clock v w limits read
  unfold performAst performText
  dsimp only
  rw [restored]
  dsimp only
  rw [Program.ofJson_toTree]
  dsimp only
  rw [same]
  exact performedRun_congr alike _

/-- Emitting the tree of a script stores it and succeeds exactly if nothing is reported on the script
by the scanner and the parser; otherwise it fails and stores nothing.  In neither case is anything
executed: what it does does not depend on what a run would be allowed, and it prints nothing but the
name of the file.  Running the stored tree, with whatever allowances and at whatever verbosity, shows
the same on both outputs as running the script, and ends in the same status or crash. -/
theorem emitted_runs_like_script {emitted : Performed} (limits₀ : Limits) (clock₀ : Clock)
    (performed : (emitAst path).perform limits₀ clock₀ (some contents) = emitted) :
    (emitted.status = .ok 0 ∧ (∃ text, emitted.written = [(path.addToName ".ast.json", text)]) ↔
      (Program.ofText (decode contents)).reports = #[]) ∧
    ((Program.ofText (decode contents)).reports ≠ #[] →
      emitted.status = .ok 1 ∧ emitted.written = [] ∧ emitted.stdout = "") ∧
    ((Program.ofText (decode contents)).reports = #[] →
      emitted.stdout = (path.addToName ".ast.json").text ++ "\n" ∧ emitted.stderr = "") ∧
    (∀ limits clock, (emitAst path).perform limits clock (some contents) = emitted) ∧
    ∀ target text, (target, text) ∈ emitted.written →
      (Program.ofText (decode contents)).program.toTree.toJson.Restored →
      ∀ limits clock v w,
        let stored := (ast target w).perform limits clock (some text)
        let direct := (script path v).perform limits clock (some contents)
        stored.stdout = direct.stdout ∧ stored.stderr = direct.stderr ∧
          stored.status = direct.status := by
  rw [perform_emitAst] at performed
  subst performed
  by_cases read : (Program.ofText (decode contents)).reports = #[]
  · rw [performEmit_of_read path read]
    refine ⟨iff_of_true ⟨rfl, _, rfl⟩ read, fun reported => absurd read reported,
      fun _ => ⟨rfl, rfl⟩, fun limits clock => ?_, ?_⟩
    · rw [perform_emitAst, performEmit_of_read path read]
    · intro target text mem restored limits clock v w
      obtain ⟨-, rfl⟩ := Prod.mk.inj (List.mem_singleton.mp mem)
      dsimp only
      rw [perform_ast, perform_script]
      exact performAst_of_restored limits clock read restored
  · rw [performEmit_of_reported path read]
    refine ⟨iff_of_false ?_ read, fun _ => ⟨rfl, rfl, rfl⟩, fun silent => absurd silent read,
      fun limits clock => ?_, ?_⟩
    · rintro ⟨-, text, stored⟩
      cases stored
    · rw [perform_emitAst, performEmit_of_reported path read]
    · intro target text mem
      exact absurd mem List.not_mem_nil

end Emitted

theorem ofText_print_nil :
    (match Program.ofText (decode "print nil;") with
      | ⟨⟨[.print (.literal .nil)]⟩, ⟨[]⟩⟩ => true
      | _ => false) = true := by
  decide +kernel

theorem read?_print_nil :
    (match Json.read? (decode (Program.mk [.print (.literal .nil)]).toTree.toJson.indented) with
      | some (.obj [("type", .str "Program"), ("body", .arr [.obj [("type", .str "PrintStmt"),
          ("expression", .obj [("type", .str "Literal"), ("value", .null)])]])]) => true
      | _ => false) = true := by
  decide +kernel

theorem perform_print_nil :
    (match (script (.ofText "p") 0).perform {} (Clock.ticking 0) (some "print nil;") with
      | ⟨.ok 0, "nil\n", "", []⟩ => true
      | _ => false) = true := by
  decide +kernel

/-- The tree of a script that prints `nil` is stored beside it, restored and run like the script,
whatever the allowances, the time and the verbosity; with the usual ones it prints `nil`. -/
theorem emitted_print_nil_runs_like_script :
    (Program.ofText (decode "print nil;")).program.toTree.toJson.Restored ∧
      (∀ limits clock v w, ∃ target text,
        ((emitAst (.ofText "p")).perform limits clock (some "print nil;")).written
          = [(target, text)] ∧
        ((ast target w).perform limits clock (some text)).stdout
          = ((script (.ofText "p") v).perform limits clock (some "print nil;")).stdout) ∧
      ∃ text,
        ((emitAst (.ofText "p")).perform {} (Clock.ticking 0) (some "print nil;")).written
          = [((FilePath.ofText "p").addToName ".ast.json", text)] ∧
        let stored := (ast ((FilePath.ofText "p").addToName ".ast.json") 0).perform {}
          (Clock.ticking 0) (some text)
        stored.status = .ok 0 ∧ stored.stdout = "nil\n" ∧ stored.stderr = "" := by
  have shape := ofText_print_nil
  split at shape
  · next reading =>
    have restored : (Program.ofText (decode "print nil;")).program.toTree.toJson.Restored := by
      rw [reading]
      have stored := read?_print_nil
      split at stored
      · next same => exact same
      · cases stored
    have silent : (Program.ofText (decode "print nil;")).reports = #[] := by rw [reading]
    refine ⟨restored, fun limits clock v w => ?_, ?_⟩
    · obtain ⟨created, -, -, -, runs⟩ :=
        emitted_runs_like_script (.ofText "p") "print nil;" limits clock rfl
      obtain ⟨-, text, written⟩ := created.mpr silent
      refine ⟨_, text, written, (runs _ text ?_ restored limits clock v w).1⟩
      rw [written]
      exact List.mem_singleton_self _
    · obtain ⟨created, -, -, -, runs⟩ :=
        emitted_runs_like_script (.ofText "p") "print nil;" {} (Clock.ticking 0) rfl
      obtain ⟨-, text, written⟩ := created.mpr silent
      have mem : ((FilePath.ofText "p").addToName ".ast.json", text) ∈
          ((emitAst (.ofText "p")).perform {} (Clock.ticking 0) (some "print nil;")).written := by
        rw [written]
        exact List.mem_singleton_self _
      obtain ⟨stdout, stderr, status⟩ := runs _ text mem restored {} (Clock.ticking 0) 0 0
      have direct := perform_print_nil
      split at direct
      · next same =>
        rw [same] at stdout stderr status
        exact ⟨text, written, status, stdout, stderr⟩
      · cases direct
  · cases shape

end Command
end Arbor
