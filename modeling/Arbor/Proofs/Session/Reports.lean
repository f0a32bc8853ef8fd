import Arbor.Proofs.Grammar.Formed
import Arbor.Proofs.Scope.Reported
import Arbor.Proofs.Session.Moments

/-!
# The gate before execution

A session is given programs as texts or as trees, one after the other.  A report of the scanner, the
parser or the resolver closes the gate before execution, for the program it is on and for all that
come later: from then on nothing is printed and no frame, global or instance changes.  As long as
nothing was reported on a text, the verdict on a program says whether its run added a report, which
is then a single one and a runtime error.

Nothing is assumed of the trees: they may hold misfits, at which resolution stops.

## Main definitions

* `Session.perform`, `Session.performAll`: what a session does with its tasks.
* `Session.objections`: what is reported on a program before it runs.

## Main statements

* `Session.errors_gate`: reports on texts close the gate for good, and verdicts mirror reports.
-/

namespace Arbor

/-! ### Reports on texts -/

/-- What is reported on the characters of a text is on the text: it is no report of a run.  The
induction is on the pieces, of which two kinds are reported. -/
theorem Scan.onText_ofText (text : String) :
    ∀ report ∈ (Scan.ofText text).reports, report.isRuntime = false := by
  suffices run : ∀ (pieces : List Piece) (s : Scan),
      (∀ report ∈ s.reports, report.isRuntime = false) →
      ∀ report ∈ (pieces.foldl add s).reports, report.isRuntime = false by
    exact run _ {} fun _ mem => absurd mem (Array.not_mem_empty _)
  intro pieces
  induction pieces with
  | nil => exact fun s each => each
  | cons piece rest ih =>
    intro s each
    refine ih (s.add piece) fun report mem => ?_
    unfold Scan.add at mem
    split at mem
    · exact each report mem
    · exact each report mem
    · rcases Array.mem_push.mp mem with old | rfl
      · exact each report old
      · rfl
    · rcases Array.mem_push.mp mem with old | rfl
      · exact each report old
      · rfl

/-- What is reported on a text that is read is on the text. -/
theorem Program.onText_ofText (text : String) :
    ∀ report ∈ (Program.ofText text).reports, report.isRuntime = false := by
  intro report mem
  rcases Array.mem_append.mp mem with scanned | parsed
  · exact Scan.onText_ofText text report scanned
  · exact Program.onText_ofTokens _ _ rfl report parsed

namespace Session

/-! ### Tasks -/

/-- What a session can be given, with what its run is allowed: a text, or a program already read. -/
inductive Task where
  | text (limits : Limits) (text : String)
  | program (limits : Limits) (program : Program)

/-- Does what a task says. -/
def perform (s : Session) : Task → Session × Verdict
  | .text limits text => s.runText limits text
  | .program limits p => s.run limits p

/-- Does what some tasks say, in order. -/
def performAll (s : Session) (tasks : List Task) : Session :=
  tasks.foldl (fun s task => (s.perform task).1) s

/-- What is reported on the program of a task before it runs.  A text is resolved only if nothing
was reported up to then, a program in any case. -/
def objections (s : Session) : Task → Array Diagnostic
  | .text _ text =>
    let reading := Program.ofText text
    if (s.addReports reading.reports).hadError then reading.reports
    else reading.reports ++ (reading.program.resolve s.machine.globalNames).reports
  | .program _ p => (p.resolve s.machine.globalNames).reports

/-- All that programs can see of one session is as it is in the other. -/
structure Untouched (s s' : Session) : Prop where
  frames : s'.machine.frames = s.machine.frames
  fields : s'.machine.fields = s.machine.fields
  made : s'.machine.made = s.machine.made
  output : s'.machine.output = s.machine.output
  clock : s'.machine.clock = s.machine.clock
  readings : s'.machine.readings = s.machine.readings

theorem Untouched.refl (s : Session) : Untouched s s :=
  ⟨rfl, rfl, rfl, rfl, rfl, rfl⟩

/-- Programs cannot see the trace, nor what was reported. -/
theorem Untouched.of_trace {s s' : Session}
    (same : s'.machine = { s.machine with trace := s'.machine.trace }) : Untouched s s' := by
  constructor <;> rw [same]

theorem Untouched.trans {s s₁ s' : Session} (first : Untouched s s₁) (second : Untouched s₁ s') :
    Untouched s s' :=
  ⟨second.frames.trans first.frames, second.fields.trans first.fields,
    second.made.trans first.made, second.output.trans first.output,
    second.clock.trans first.clock, second.readings.trans first.readings⟩

theorem Untouched.symm {s s' : Session} (untouched : Untouched s s') : Untouched s' s :=
  ⟨untouched.frames.symm, untouched.fields.symm, untouched.made.symm, untouched.output.symm,
    untouched.clock.symm, untouched.readings.symm⟩

theorem untouched_note (s : Session) (event : Event) : Untouched s (s.note event) :=
  .of_trace rfl

theorem untouched_closeTrace (s : Session) : Untouched s s.closeTrace :=
  .of_trace rfl

theorem globalNames_note (s : Session) (event : Event) :
    (s.note event).machine.globalNames = s.machine.globalNames :=
  rfl

/-- Events that are noted in a row leave the machine alone as well, but for its trace. -/
theorem untouched_noteAll (s : Session) (events : Array Event) : Untouched s (s.noteAll events) := by
  unfold noteAll
  rw [← Array.foldl_toList]
  suffices run : ∀ (events : List Event) (m : Machine),
      Untouched { s with machine := m } { s with machine := events.foldl Machine.note m } by
    exact run events.toList s.machine
  intro events
  induction events with
  | nil => exact fun m => .refl _
  | cons event rest ih =>
    intro m
    exact (untouched_note { s with machine := m } event).trans (ih (m.note event))

theorem untouched_addResolved (s : Session) (r : Resolved) : Untouched s (s.addResolved r) :=
  (untouched_noteAll s (r.resolutions.map Event.resolved)).trans (.of_trace rfl)

theorem untouched_poised (s : Session) (text : String) : Untouched s (s.poised text) :=
  have readied : Untouched s (s.readied text) := .of_trace rfl
  (readied.trans (untouched_addResolved _ _)).trans (untouched_note _ _)

theorem reports_closeTrace (s : Session) : s.closeTrace.reports = s.reports :=
  rfl

/-! ### When the gate is closed -/

/-- Reports on texts close the gate, and nothing opens it.  Those of a run would not: a session goes
on after a runtime error. -/
theorem hadError_addReports_iff {s : Session} {found : Array Diagnostic}
    (onText : ∀ report ∈ found, report.isRuntime = false) :
    (s.addReports found).hadError = true ↔ s.hadError = true ∨ found ≠ #[] := by
  have added : (s.addReports found).hadError
      = (s.hadError || found.any fun report => !report.isRuntime) := Array.any_append
  rw [added, Bool.or_eq_true]
  refine or_congr_right ⟨?_, fun some => ?_⟩
  · rintro any rfl
    simp at any
  · obtain ⟨report, mem⟩ := Array.exists_mem_of_ne_empty found some
    exact Array.any_eq_true'.mpr ⟨report, mem, by rw [onText report mem]; rfl⟩

/-- Whatever is found wrong with a task before it is run is wrong with its text. -/
theorem onText_objections (s : Session) (task : Task) :
    ∀ report ∈ s.objections task, report.isRuntime = false := by
  cases task with
  | program limits p => exact Program.onText_resolve _ p
  | text limits text =>
    unfold objections
    dsimp only
    split
    · exact Program.onText_ofText text
    · intro report mem
      rcases Array.mem_append.mp mem with read | resolved
      · exact Program.onText_ofText text report read
      · exact Program.onText_resolve _ _ report resolved

/-! ### What a task can come to -/

/-- The ways in which a task ends, given what was reported on its program: it is held back at the
gate, resolution breaks off, or its statements are executed, which adds a report exactly if their run
fails. -/
inductive Ends (s : Session) (found : Array Diagnostic) (s' : Session) : Verdict → Prop
  | held (closed : (s.addReports found).hadError = true)
      (reports : s'.reports = s.reports ++ found) (untouched : Untouched s s') :
      Ends s found s' .failed
  | broken {fault : Fault} (reports : s'.reports = s.reports ++ found)
      (untouched : Untouched s s') : Ends s found s' (.fault fault)
  | failed (opened : (s.addReports found).hadError = false) {error : RuntimeError}
      (reports : s'.reports = (s.reports ++ found).push (.runtime error)) : Ends s found s' .failed
  | passed {verdict : Verdict} (opened : (s.addReports found).hadError = false)
      (reports : s'.reports = s.reports ++ found) (other : verdict ≠ .failed) :
      Ends s found s' verdict

/-- How a task ends whose statements are run.  An error in them is reported behind what there was;
all other ends add no report. -/
theorem ends_interpret (limits : Limits) {s t : Session} {found : Array Diagnostic}
    (opened : (s.addReports found).hadError = false) (reports : t.reports = s.reports ++ found)
    (statements : List Stmt) :
    Ends s found (t.interpret limits statements).1 (t.interpret limits statements).2 := by
  unfold interpret
  split
  · exact .passed opened reports nofun
  · next error machine _ => exact .failed opened (congrArg (Array.push · (.runtime error)) reports)
  · exact .passed opened reports nofun
  · exact .passed opened reports nofun
  · exact .passed opened reports nofun

/-- The notes that follow the statements change nothing of how a task ends, whichever of the four
ends it is. -/
theorem Ends.noted {s t u : Session} {found : Array Diagnostic} {verdict : Verdict}
    (ends : Ends s found t verdict) (untouched : Untouched t u) (reports : u.reports = t.reports) :
    Ends s found u verdict := by
  cases ends with
  | held closed kept same => exact .held closed (reports.trans kept) (same.trans untouched)
  | broken kept same => exact .broken (reports.trans kept) (same.trans untouched)
  | failed opened kept => exact .failed opened (reports.trans kept)
  | passed opened kept other => exact .passed opened (reports.trans kept) other

/-- A program is run only if nothing was reported on it, and is held back otherwise.  Held back, it
leaves the session as it was but for the notes. -/
theorem ends_runResolved (limits : Limits) {s t : Session} {found : Array Diagnostic}
    (untouched : Untouched s t) (reports : t.reports = s.reports ++ found) (p : Program) :
    Ends s found (t.runResolved limits p).1 (t.runResolved limits p).2 := by
  have same : (s.addReports found).hadError = t.hadError := by
    unfold hadError addReports
    rw [reports]
  unfold runResolved
  split
  · next closed => exact .held (same.trans closed) reports (untouched.trans (.of_trace rfl))
  · next opened =>
    have ends := ends_interpret limits (t := t.note .interpreting)
      (same.trans (Bool.eq_false_iff.mpr opened)) reports p.body
    dsimp only
    refine ends.noted ?_ ?_
    · cases ((t.note .interpreting).interpret limits p.body).2 <;> exact .of_trace rfl
    · cases ((t.note .interpreting).interpret limits p.body).2 <;> rfl

/-- What was reported before a program is resolved goes with what the resolver reports.  Both
together decide whether it is run. -/
theorem ends_run (limits : Limits) {s t : Session} {found : Array Diagnostic}
    (untouched : Untouched s t) (reports : t.reports = s.reports ++ found) (p : Program) :
    Ends s (found ++ (p.resolve s.machine.globalNames).reports) (t.run limits p).1
      (t.run limits p).2 := by
  have names : (t.note (.resolving p.body.length)).machine.globalNames
      = s.machine.globalNames := by
    change (t.machine.frames.bindings _).names = _
    rw [untouched.frames]
    rfl
  have noted : Untouched s (t.note (.resolving p.body.length)) :=
    untouched.trans (.of_trace rfl)
  have resolved := noted.trans (untouched_addResolved _ (p.resolve s.machine.globalNames))
  have all : ((t.note (.resolving p.body.length)).addResolved
      (p.resolve s.machine.globalNames)).reports
      = s.reports ++ (found ++ (p.resolve s.machine.globalNames).reports) := by
    rw [← Array.append_assoc, ← reports]
    rfl
  rw [run_eq t p names]
  cases (p.resolve s.machine.globalNames).outcome with
  | error fault => exact .broken all (resolved.trans (untouched_closeTrace _))
  | ok program =>
    exact (ends_runResolved limits resolved all program).noted (untouched_closeTrace _)
      (reports_closeTrace _)

/-- A task ends in one of the ways there are, as its objections say: those of the parser hold a text
back before it is resolved. -/
theorem ends_perform (s : Session) (task : Task) :
    Ends s (s.objections task) (s.perform task).1 (s.perform task).2 := by
  cases task with
  | program limits p =>
    have ends := ends_run limits (.refl s) Array.append_empty.symm p
    rw [Array.empty_append] at ends
    exact ends
  | text limits text =>
    have read : Untouched s ((s.note (.scanned (Scan.ofText text).size)).addReports
        (Program.ofText text).reports) := .of_trace rfl
    unfold objections perform runText
    dsimp only
    by_cases closed : (s.addReports (Program.ofText text).reports).hadError = true
    · rw [if_pos closed]
      have shut : ((s.note (.scanned (Scan.ofText text).size)).addReports
        (Scan.ofText text).parse.reports).hadError = true := closed
      rw [if_pos shut]
      exact .held closed rfl (.of_trace rfl)
    · rw [if_neg closed]
      have stays : ¬ ((s.note (.scanned (Scan.ofText text).size)).addReports
        (Scan.ofText text).parse.reports).hadError = true := closed
      rw [if_neg stays]
      exact ends_run limits read rfl (Program.ofText text).program

/-! ### What follows from the ways in which a task ends -/

section Ends

variable {s s' : Session} {found : Array Diagnostic} {verdict : Verdict}

theorem Ends.grows (ends : Ends s found s' verdict) : ∃ added, s'.reports = s.reports ++ added := by
  cases ends with
  | held _ reports _ | broken reports _ | passed _ reports _ => exact ⟨found, reports⟩
  | @failed _ error reports => exact ⟨found.push (.runtime error), by rw [reports, Array.append_push]⟩

/-- An error stays, since reports are added to those there are and none is taken back. -/
theorem hadError_of_grows (grows : ∃ added, s'.reports = s.reports ++ added)
    (closed : s.hadError = true) : s'.hadError = true := by
  obtain ⟨added, grown⟩ := grows
  have more : s'.hadError = (s.addReports added).hadError := by
    unfold hadError addReports
    rw [grown]
  rw [more]
  exact Array.any_append.trans (by rw [Bool.or_eq_true]; exact .inl closed)

/-- Behind a closed gate nothing runs, and only resolution can keep a task from failing.  There it
may stop with a fault, which is neither a success nor a failure. -/
theorem Ends.of_closed (ends : Ends s found s' verdict)
    (closed : (s.addReports found).hadError = true) :
    Untouched s s' ∧ s'.reports = s.reports ++ found ∧
      (verdict = .ok ∨ verdict = .failed → verdict = .failed) := by
  cases ends with
  | held _ reports untouched => exact ⟨untouched, reports, fun _ => rfl⟩
  | broken reports untouched =>
    exact ⟨untouched, reports, fun returns => by rcases returns with same | same <;> cases same⟩
  | failed opened _ => cases closed.symm.trans opened
  | passed opened _ _ => cases closed.symm.trans opened

/-- In front of an open gate a task that comes to an end fails with a report or passes without. -/
theorem Ends.of_opened (ends : Ends s #[] s' verdict) (opened : s.hadError = false)
    (returns : verdict = .ok ∨ verdict = .failed) :
    (verdict = .ok ∧ s'.reports = s.reports) ∨
      (verdict = .failed ∧ ∃ error, s'.reports = s.reports.push (.runtime error)) := by
  cases ends with
  | held closed _ _ =>
    rw [hadError_addReports_empty opened rfl] at closed
    cases closed
  | broken _ _ => rcases returns with same | same <;> cases same
  | @failed _ error reports =>
    rw [Array.append_empty] at reports
    exact .inr ⟨rfl, error, reports⟩
  | passed _ reports other =>
    rw [Array.append_empty] at reports
    exact .inl ⟨returns.resolve_right other, reports⟩

/-- A runtime error is a report, and none on a text. -/
theorem hadRuntimeError_of_push {error : RuntimeError}
    (reports : s'.reports = s.reports.push (.runtime error)) :
    s'.hadRuntimeError = true ∧ s'.hadError = s.hadError := by
  unfold hadRuntimeError hadError
  rw [reports, Array.any_push, Array.any_push]
  exact ⟨Bool.or_true _, Bool.or_false _⟩

end Ends

/-! ### The rest of a session -/

/-- A closed gate stays closed, and whatever comes in front of it leaves no mark.  The induction is
on the tasks, each of which finds the gate closed. -/
theorem performAll_of_hadError {s : Session} (closed : s.hadError = true) (tasks : List Task) :
    Untouched s (s.performAll tasks) ∧ (s.performAll tasks).hadError = true := by
  induction tasks generalizing s with
  | nil => exact ⟨.refl s, closed⟩
  | cons task rest ih =>
    have ends := ends_perform s task
    have shut := (hadError_addReports_iff (onText_objections s task)).mpr (.inl closed)
    obtain ⟨untouched, stays⟩ := ih (hadError_of_grows ends.grows closed)
    exact ⟨(ends.of_closed shut).1.trans untouched, stays⟩

/-- Reports on texts close the gate before execution for the rest of a session, and verdicts mirror
reports.  Whatever state a session is in and whatever it is given next, reports are only added and
an error stays.  Behind a closed gate, or if something is reported on the program itself, a task
that comes to an end fails and leaves no mark but the reports on its program.  Otherwise it passes
exactly if no report is added, and fails exactly if one is added, a runtime error.  When there has been
an error, no later task leaves a mark at all. -/
theorem errors_gate {s s' : Session} {task : Task} {verdict : Verdict}
    (performed : s.perform task = (s', verdict)) :
    (∃ added, s'.reports = s.reports ++ added) ∧
    (s.hadError = true → s'.hadError = true) ∧
    (verdict = .ok ∨ verdict = .failed →
      (s.hadError = true ∨ s.objections task ≠ #[] →
        verdict = .failed ∧ s'.reports = s.reports ++ s.objections task ∧ Untouched s s') ∧
      (s.hadError = false → s.objections task = #[] →
        (verdict = .ok ↔ s'.reports = s.reports) ∧
        (verdict = .failed ↔ ∃ error, s'.reports = s.reports.push (.runtime error)) ∧
        (verdict = .failed → s'.hadRuntimeError = true ∧ s'.hadError = false))) ∧
    (s'.hadError = true → ∀ later,
      Untouched s' (s'.performAll later) ∧ (s'.performAll later).hadError = true) := by
  have ends : Ends s (s.objections task) s' verdict := by
    have ends := ends_perform s task
    rwa [performed] at ends
  have gate := hadError_addReports_iff (s := s) (onText_objections s task)
  refine ⟨ends.grows, hadError_of_grows ends.grows, fun returns => ⟨fun closed => ?_, ?_⟩,
    performAll_of_hadError⟩
  · obtain ⟨untouched, reports, fails⟩ := ends.of_closed (gate.mpr closed)
    exact ⟨fails returns, reports, untouched⟩
  · intro opened none
    rw [none] at ends
    rcases ends.of_opened opened returns with ⟨passed, reports⟩ | ⟨failed, error, reports⟩
    · -- the reports are as they were, so none was pushed
      have unchanged : ¬ ∃ error, s'.reports = s.reports.push (.runtime error) := by
        rintro ⟨error, pushed⟩
        exact Array.push_ne_self (pushed.symm.trans reports)
      exact ⟨iff_of_true passed reports, iff_of_false (by rw [passed]; nofun) unchanged,
        fun failed => absurd (passed.symm.trans failed) nofun⟩
    · have changed : s'.reports ≠ s.reports := fun same =>
        Array.push_ne_self (reports.symm.trans same)
      obtain ⟨runtime, same⟩ := hadRuntimeError_of_push reports
      exact ⟨iff_of_false (by rw [failed]; nofun) changed, iff_of_true failed ⟨error, reports⟩,
        fun _ => ⟨runtime, same.trans opened⟩⟩

/-- Behind a text that cannot be read a text that can be is held back, and a runtime error in front
of an open gate is the one report that is added. -/
theorem unread_text_gates_next :
    (let s := (start (.ticking 0) 0).performAll [.text {} "print 1"];
      s.hadError = true ∧ (s.perform (.text {} "print 2;")).2 = .failed ∧
        Untouched s (s.perform (.text {} "print 2;")).1) ∧
    (let s := (start (.ticking 0) 0).performAll [.text {} "print 1;"];
      (s.perform (.text {} "-nil;")).2 = .failed ∧
        (s.perform (.text {} "-nil;")).1.hadRuntimeError = true ∧
        (s.perform (.text {} "-nil;")).1.hadError = false) := by
  dsimp only
  constructor
  · have closed : ((start (.ticking 0) 0).performAll [.text {} "print 1"]).hadError = true := by decide +kernel
    have ends : (((start (.ticking 0) 0).performAll [.text {} "print 1"]).perform
        (.text {} "print 2;")).2 = .failed := by decide +kernel
    obtain ⟨-, -, gate, -⟩ := errors_gate (Prod.eta (((start (.ticking 0) 0).performAll
      [.text {} "print 1"]).perform (.text {} "print 2;"))).symm
    obtain ⟨failed, -, untouched⟩ := (gate (.inr ends)).1 (.inl closed)
    exact ⟨closed, failed, untouched⟩
  · have opened : ((start (.ticking 0) 0).performAll [.text {} "print 1;"]).hadError = false := by
      decide +kernel
    have none : ((start (.ticking 0) 0).performAll [.text {} "print 1;"]).objections
        (.text {} "-nil;") = #[] := Array.size_eq_zero_iff.mp (by decide +kernel)
    have ends : (((start (.ticking 0) 0).performAll [.text {} "print 1;"]).perform
        (.text {} "-nil;")).2 = .failed := by decide +kernel
    obtain ⟨-, -, gate, -⟩ := errors_gate (Prod.eta (((start (.ticking 0) 0).performAll
      [.text {} "print 1;"]).perform (.text {} "-nil;"))).symm
    exact ⟨ends, ((gate (.inr ends)).2 opened none).2.2 ends⟩

end Session
end Arbor
