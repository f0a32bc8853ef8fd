import Arbor.Proofs.Execution.Sturdy
import Arbor.Proofs.Program.Unresolved
import Arbor.Proofs.Session.Moments
import Arbor.Proofs.Tree.Slots

/-!
# Sessions that run what texts read as

Whatever stands in a text, and whatever is reported on it, what it reads as is a well-formed
program.  A session whose machine has run nothing but such programs meets no tree that a stage has no
rule for.  It does not matter whether the programs were resolved, among which globals, or whether
what was reported on them would have kept them from running.

## Main definitions

* `BodyOf`: the statements of a text, resolved or not.
* `Session.Textual`: sessions that ran texts only.

## Main statements

* `Session.Textual.formed`: the machine of such a session holds well-formed functions only.
-/

namespace Arbor

/-- The statements that a text reads as, as they are read or as they are resolved among some
globals. -/
inductive BodyOf (text : String) : List Stmt → Prop
  | read : BodyOf text (Program.ofText text).program.body
  | resolved {globals : List String} {p : Program}
      (outcome : ((Program.ofText text).program.resolve globals).outcome = .ok p) :
      BodyOf text p.body

theorem BodyOf.formed {text : String} {body : List Stmt} (of : BodyOf text body) :
    Stmt.AllFormed Token.Spelled body := by
  cases of with
  | read => exact Session.formed_ofText text
  | resolved outcome => exact Program.formed_of_resolve outcome (Session.formed_ofText text)

namespace Session

open Execution

/-- Sessions in which texts were run and nothing else: as steps of the session, or their statements
alone, whatever had been reported. -/
inductive Textual : Session → Prop
  | start (clock : Clock) (traceLevel : Nat) : Textual (start clock traceLevel)
  | step {s : Session} (limits : Limits) (text : String) (before : Textual s) :
      Textual (s.runText limits text).1
  | interpreted {s : Session} {text : String} {body : List Stmt} (limits : Limits)
      (of : BodyOf text body) (before : Textual s) : Textual (s.interpret limits body).1

section Runs

variable {s : Session} {limits : Limits} {body : List Stmt}

/-- Running well-formed statements leaves well-formed functions behind.  It does not matter how the
run ends, as functions are made of declarations whenever they are made. -/
theorem formed_interpret (machine : s.machine.Formed)
    (formed : Stmt.AllFormed Token.Spelled body) :
    (s.interpret limits body).1.machine.Formed := by
  have ran := formed_runAll limits.turns limits.room machine.there formed s.machine machine
    (Nat.le_refl _)
  unfold interpret
  unfold Stateful.Ensures at ran
  split <;> next result => rw [result] at ran; exact ran.1

/-- A fault that ends the run of well-formed statements does not blame them.  It is the nesting that
became too deep, or it was raised by a call, and no call of a well-formed statement blames it. -/
theorem blamesTree_of_interpret (machine : s.machine.Formed)
    (formed : Stmt.AllFormed Token.Spelled body) {fault : Fault}
    (ends : (s.interpret limits body).2 = .fault fault) : fault.blamesTree = false := by
  have ran := formed_runAll limits.turns limits.room machine.there formed s.machine machine
    (Nat.le_refl _)
  rcases fault_of_interpret ends with rfl | ⟨m, raised⟩
  · rfl
  · exact (ran.of_error raised).2 _ rfl

theorem formed_addResolved (machine : s.machine.Formed) (r : Resolved) :
    (s.addResolved r).machine.Formed :=
  machine.congr (frames_foldl_note _ _).1 (frames_foldl_note _ _).2

/-- So does running a resolved program, or else it is not run at all. -/
theorem formed_runResolved (machine : s.machine.Formed) {p : Program}
    (formed : Stmt.AllFormed Token.Spelled p.body) :
    (s.runResolved limits p).1.machine.Formed := by
  unfold runResolved
  split
  · exact machine.congr rfl rfl
  · have noted : (s.note .interpreting).machine.Formed := machine.congr rfl rfl
    have ran : ((s.note .interpreting).interpret limits p.body).1.machine.Formed :=
      formed_interpret noted formed
    exact ran.congr (machine_noteVerdict _ _).1 (machine_noteVerdict _ _).2

/-- So does resolving a well-formed program and running the outcome, which is well-formed as
well. -/
theorem formed_run (machine : s.machine.Formed) {p : Program}
    (formed : Stmt.AllFormed Token.Spelled p.body) : (s.run limits p).1.machine.Formed := by
  have noted : (s.note (.resolving p.body.length)).machine.Formed := machine.congr rfl rfl
  obtain ⟨q, outcome⟩ := Program.exists_resolve formed
    (s.note (.resolving p.body.length)).machine.globalNames
  rw [run_eq s p rfl, outcome]
  exact (formed_runResolved (formed_addResolved noted _)
    (Program.formed_of_resolve outcome formed)).congr rfl rfl

/-- The session when a text has been read. -/
def afterReading (s : Session) (text : String) : Session :=
  (s.note (.scanned (Scan.ofText text).size)).addReports (Program.ofText text).reports

/-- A text runs if nothing was reported by the time it has been read. -/
theorem runText_eq (limits : Limits) (s : Session) (text : String) :
    s.runText limits text =
      if (s.afterReading text).hadError then
        (((s.afterReading text).note .grammarErrors).closeTrace, .failed)
      else (s.afterReading text).run limits (Program.ofText text).program :=
  rfl

theorem formed_runText (machine : s.machine.Formed) (text : String) :
    (s.runText limits text).1.machine.Formed := by
  have ready : (s.afterReading text).machine.Formed := machine.congr rfl rfl
  rw [runText_eq]
  split
  · exact ready.congr rfl rfl
  · exact formed_run ready (formed_ofText text)

end Runs

/-- A session that ran texts only holds well-formed functions only. -/
theorem Textual.formed {s : Session} (textual : s.Textual) : s.machine.Formed := by
  induction textual with
  | start clock traceLevel => exact .fresh clock traceLevel
  | step limits text _ ih => exact formed_runText ih text
  | interpreted limits of _ ih => exact formed_interpret ih of.formed

/-- A text reads as a tree that has in every slot what it asks for, it is resolved among any
globals, and its statements, resolved or not, run without a fault that blames the tree. -/
theorem ofText_kinds (text : String) :
    (Program.ofText text).program.toTree.Fits (.node [.program]) ∧
    (∀ globals, ∃ p, ((Program.ofText text).program.resolve globals).outcome = .ok p ∧
      p.toTree.Fits (.node [.program])) ∧
    ∀ (s : Session) (body : List Stmt) (limits : Limits) (fault : Fault), s.Textual →
      BodyOf text body → (s.interpret limits body).2 = .fault fault → fault.blamesTree = false := by
  refine ⟨Program.fits_toTree (formed_ofText text), fun globals => ?_, ?_⟩
  · obtain ⟨p, outcome⟩ := Program.exists_resolve (formed_ofText text) globals
    have formed := Program.formed_of_resolve outcome (formed_ofText text)
    exact ⟨p, outcome, Program.fits_toTree formed⟩
  · intro s body limits fault textual of ends
    exact blamesTree_of_interpret textual.formed of.formed ends

/-- A text with an error, whose function leaves a loop that is not there. -/
def strayBreak : String :=
  "fun f() { break; } var = ;"

/-- The session in which its statements have run all the same. -/
def afterStrayBreak : Session :=
  ((start (.ticking 0) 0).interpret {} (Program.ofText strayBreak).program.body).1

theorem run_afterStrayBreak :
    0 < (Program.ofText strayBreak).reports.size ∧ 0 < (Program.ofText "f(); )").reports.size ∧
      (afterStrayBreak.interpret {} (Program.ofText "f(); )").program.body).2 =
        .fault (.escapedFunction .brk "f") := by
  decide +kernel

/-- A later text calls the function.  The run ends in a fault, which blames the jump and no tree. -/
theorem afterStrayBreak_kinds :
    afterStrayBreak.Textual ∧
    (Program.ofText "f(); )").program.toTree.Fits (.node [.program]) ∧
    (afterStrayBreak.interpret {} (Program.ofText "f(); )").program.body).2 =
      .fault (.escapedFunction .brk "f") ∧
    (Fault.escapedFunction .brk "f").blamesTree = false := by
  have textual : afterStrayBreak.Textual := .interpreted {} .read (.start _ 0)
  obtain ⟨-, -, ends⟩ := run_afterStrayBreak
  obtain ⟨fits, -, spares⟩ := ofText_kinds "f(); )"
  exact ⟨textual, fits, ends, spares _ _ _ _ textual .read ends⟩

end Session
end Arbor
