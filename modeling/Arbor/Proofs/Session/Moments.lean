import Arbor.Proofs.Execution.Lockstep
import Arbor.Proofs.Grammar.Formed
import Arbor.Proofs.Scope.Total
import Arbor.Session

/-!
# The moments of a session

A session is a machine on which texts run one after the other.  This module looks at sessions all of
whose texts are accepted: nothing is reported on them by the scanner, the parser or the resolver.
Such a session has a history, all visits of all its resolutions and all frames made in its runs, and
every call of the evaluator in it goes with that history, whatever became of the steps before: they
may have ended in an error of the program, run out of turns or room, or even raised a fault.

## Main definitions

* `Session.Accepts`, `Session.AcceptsAll`: texts on which nothing is reported.
* `Session.Occurs`: the calls of the evaluator in the run of a text.
* `Session.history`: what has happened in a session.

## Main statements

* `Session.sane_after`: the machine goes with the history at every step.
* `Session.Occurs.follows`: so does every call.
-/

namespace Arbor
namespace Session

open Execution Stateful

/-! ### Steps -/

/-- A step of a session: a text and what its run is allowed. -/
abbrev Step := Limits × String

/-- The session after a step. -/
@[irreducible] def next (s : Session) (step : Step) : Session :=
  (s.runText step.1 step.2).1

theorem next_eq (s : Session) (step : Step) : s.next step = (s.runText step.1 step.2).1 := by
  with_unfolding_all rfl

/-- The session after some steps. -/
def after (s : Session) (steps : List Step) : Session :=
  steps.foldl next s

/-- What resolving a text comes to in a session. -/
def resolved (s : Session) (text : String) : Resolved :=
  (Program.ofText text).program.resolve s.machine.globalNames

/-- Nothing is reported on a text. -/
structure Accepts (s : Session) (text : String) : Prop where
  read : (Program.ofText text).reports = #[]
  resolved : (s.resolved text).reports = #[]

/-- Nothing is reported on any text of a session. -/
def AcceptsAll (s : Session) : List Step → Prop
  | [] => True
  | step :: rest => s.Accepts step.2 ∧ AcceptsAll (s.next step) rest

theorem after_append (s : Session) (steps more : List Step) :
    s.after (steps ++ more) = (s.after steps).after more :=
  List.foldl_append

/-- If all steps of a session are accepted, so are the first ones, and the others in the session
behind them. -/
theorem AcceptsAll.append {s : Session} {steps more : List Step}
    (accepts : s.AcceptsAll (steps ++ more)) :
    s.AcceptsAll steps ∧ (s.after steps).AcceptsAll more := by
  induction steps generalizing s with
  | nil => exact ⟨trivial, accepts⟩
  | cons step rest ih =>
    obtain ⟨first, others⟩ := accepts
    exact ⟨⟨first, (ih others).1⟩, (ih others).2⟩

/-- The session when an accepted text has been read. -/
def readied (s : Session) (text : String) : Session :=
  ((s.note (.scanned (Scan.ofText text).size)).addReports (Program.ofText text).reports).note
    (.resolving (Program.ofText text).program.body.length)

/-- The session as the statements of an accepted text begin to run. -/
def poised (s : Session) (text : String) : Session :=
  ((s.readied text).addResolved (s.resolved text)).note .interpreting

/-! ### What the trace does not touch -/

theorem frames_foldl_note (events : Array Event) (m : Machine) :
    (events.foldl Machine.note m).frames = m.frames ∧
      (events.foldl Machine.note m).fields = m.fields := by
  rw [← Array.foldl_toList]
  induction events.toList generalizing m with
  | nil => exact ⟨rfl, rfl⟩
  | cons event rest ih => exact ih _

theorem frames_poised (s : Session) (text : String) :
    (s.poised text).machine.frames = s.machine.frames ∧
      (s.poised text).machine.fields = s.machine.fields :=
  frames_foldl_note _ _

theorem machine_noteVerdict (s : Session) (verdict : Verdict) :
    (s.noteVerdict verdict).machine.frames = s.machine.frames ∧
      (s.noteVerdict verdict).machine.fields = s.machine.fields := by
  cases verdict <;> exact ⟨rfl, rfl⟩

/-! ### An accepted step -/

section Accepted

variable {s : Session} {limits : Limits} {text : String}

theorem hadError_addReports_empty (clean : s.hadError = false) {reports : Array Diagnostic}
    (none : reports = #[]) : (s.addReports reports).hadError = false := by
  unfold hadError addReports at *
  rw [none, Array.append_empty]
  exact clean

theorem hadError_readied (accepts : s.Accepts text) (clean : s.hadError = false) :
    (s.readied text).hadError = false :=
  hadError_addReports_empty clean accepts.read

theorem hadError_addResolved (accepts : s.Accepts text) (clean : s.hadError = false) :
    ((s.readied text).addResolved (s.resolved text)).hadError = false :=
  hadError_addReports_empty (hadError_readied accepts clean) accepts.resolved

theorem globalNames_readied : (s.readied text).machine.globalNames = s.machine.globalNames :=
  rfl

/-- What becomes of a program, by what resolving it comes to.  After a fault nothing is run, and in
both cases the trace is closed. -/
theorem run_eq (t : Session) (p : Program) {globals : List String}
    (known : (t.note (.resolving p.body.length)).machine.globalNames = globals) :
    t.run limits p =
      (match (p.resolve globals).outcome with
        | .error fault => (((t.note (.resolving p.body.length)).addResolved
            (p.resolve globals)).closeTrace, .fault fault)
        | .ok program =>
          let ran := ((t.note (.resolving p.body.length)).addResolved
            (p.resolve globals)).runResolved limits program
          (ran.1.closeTrace, ran.2)) := by
  subst known
  unfold run
  dsimp only
  cases (p.resolve (t.note (.resolving p.body.length)).machine.globalNames).outcome <;> rfl

/-- What becomes of an accepted text: it is neither held back by its reports nor by those of the
session, so it is resolved and run. -/
theorem runText_of_accepts (accepts : s.Accepts text) (clean : s.hadError = false) :
    s.runText limits text =
      (match (s.resolved text).outcome with
        | .error fault => (((s.readied text).addResolved (s.resolved text)).closeTrace,
            .fault fault)
        | .ok p =>
          let ran := (s.poised text).interpret limits p.body
          ((ran.1.noteVerdict ran.2).closeTrace, ran.2)) := by
  have read : ((s.note (.scanned (Scan.ofText text).size)).addReports
      (Program.ofText text).reports).hadError = false :=
    hadError_addReports_empty clean accepts.read
  have start : s.runText limits text = ((s.note (.scanned (Scan.ofText text).size)).addReports
      (Program.ofText text).reports).run limits (Program.ofText text).program := by
    unfold runText
    exact if_neg (Bool.eq_false_iff.mp read)
  have same : (Program.ofText text).program.resolve s.machine.globalNames = s.resolved text := rfl
  have ready : ((s.note (.scanned (Scan.ofText text).size)).addReports
      (Program.ofText text).reports).note (.resolving (Program.ofText text).program.body.length)
      = s.readied text := rfl
  rw [start, run_eq _ _ globalNames_readied, same, ready]
  cases (s.resolved text).outcome with
  | error fault => rfl
  | ok p =>
    dsimp only
    unfold runResolved
    rw [if_neg (Bool.eq_false_iff.mp (hadError_addResolved accepts clean))]
    rfl

/-- A runtime error is no error in a text.  So it does not close the session to what follows. -/
theorem hadError_interpret (clean : s.hadError = false) (statements : List Stmt) :
    (s.interpret limits statements).1.hadError = false := by
  unfold interpret
  split
  · exact clean
  · unfold hadError at clean ⊢
    rw [Array.any_push, clean]
    rfl
  · exact clean
  · exact clean
  · exact clean

theorem hadError_noteVerdict (verdict : Verdict) :
    (s.noteVerdict verdict).hadError = s.hadError := by
  cases verdict <;> rfl

theorem hadError_closeTrace : s.closeTrace.hadError = s.hadError :=
  rfl

theorem hadError_note (event : Event) : (s.note event).hadError = s.hadError :=
  rfl

theorem hadError_poised (accepts : s.Accepts text) (clean : s.hadError = false) :
    (s.poised text).hadError = false := by
  rw [poised, hadError_note, hadError_addResolved accepts clean]

/-- An accepted step leaves a session in which nothing was reported on a text, however the step
ends. -/
theorem hadError_runText (accepts : s.Accepts text) (clean : s.hadError = false) :
    (s.runText limits text).1.hadError = false := by
  rw [runText_of_accepts accepts clean]
  cases (s.resolved text).outcome with
  | error fault =>
    dsimp only
    rw [hadError_closeTrace, hadError_addResolved accepts clean]
  | ok p =>
    dsimp only
    rw [hadError_closeTrace, hadError_noteVerdict]
    exact hadError_interpret (hadError_poised accepts clean) p.body

end Accepted

/-- So it is after any number of accepted steps. -/
theorem hadError_after {steps : List Step} : ∀ {s : Session}, s.hadError = false →
    s.AcceptsAll steps → (s.after steps).hadError = false := by
  induction steps with
  | nil => exact fun clean _ => clean
  | cons step rest ih =>
    intro s clean accepts
    refine ih ?_ accepts.2
    rw [next_eq]
    exact hadError_runText accepts.1 clean

/-! ### Moments and their history -/

/-- The calls of the evaluator in the run of an accepted text: those made for its statements, each
after the ones before it completed, and the calls these make. -/
inductive Occurs (s : Session) (limits : Limits) (text : String) (M : Moment) : Prop
  | intro {p : Program} {before later : List Stmt} {st : Stmt} {m : Machine}
      (outcome : (s.resolved text).outcome = .ok p) (split : p.body = before ++ st :: later)
      (ran : (runAll limits.turns limits.room before).run (s.poised text).machine = .ok () m)
      (reaches : Reaches limits.turns ⟨limits.room, .execute st Machine.globals, m⟩ M)

theorem Occurs.starts {s : Session} {limits : Limits} {text : String} {M M' : Moment}
    (occurs : s.Occurs limits text M) (starts : Starts limits.turns M M') :
    s.Occurs limits text M' := by
  obtain ⟨outcome, split, ran, reaches⟩ := occurs
  exact ⟨outcome, split, ran, reaches.tail starts⟩

/-- What resolution yields for an accepted text.  Nothing was reported, so that the resolved
statements are those that run. -/
theorem Accepts.yields {s : Session} {text : String} (accepts : s.Accepts text) {p : Program}
    (outcome : (s.resolved text).outcome = .ok p) :
    ∃ s', Scope.Yields (Scope.stmts {} (Program.ofText text).program.body)
      (.initial s.machine.globalNames) p.body s' := by
  have silent := accepts.resolved
  unfold Session.resolved Program.resolve at outcome silent
  dsimp only at outcome silent
  split at outcome
  · next body s' ran =>
    rw [ran] at silent
    cases outcome
    exact ⟨s', ran, silent⟩
  · cases outcome

/-- A text reads as a well-formed program, of tokens that pass what all tokens of the text pass. -/
theorem formed_ofText_of {token : Token → Prop} {text : String}
    (each : ∀ t ∈ (Scan.ofText text).tokens, token t) :
    Stmt.AllFormed token (Program.ofText text).program.body := by
  have passed : ∀ t ∈ (Scan.ofText text).tokens.toList, token t :=
    fun t mem => each t (Array.mem_toList_iff.mp mem)
  have read : (Program.ofText text).program = (Program.ofTokens Grammar.depthLimit
      (Scan.ofText text).tokens.toList (Scan.ofText text).ending).program := by
    rw [Program.ofText, Scan.parse]
  have ends : (Scan.ofText text).ending.kind = .endOfText := rfl
  rw [read]
  exact Program.formed_ofTokens Grammar.depthLimit passed ends

/-- A text reads as a well-formed program. -/
theorem formed_ofText (text : String) :
    Stmt.AllFormed Token.Spelled (Program.ofText text).program.body :=
  formed_ofText_of (Scan.spelled text)

/-- The program a text reads as is resolved, whatever is reported on it. -/
theorem exists_resolved (s : Session) (text : String) :
    ∃ p, (s.resolved text).outcome = .ok p :=
  Program.exists_resolve (formed_ofText text) _

/-- What has happened in a session: the visits of the resolutions of its texts, and the frames made
in their runs. -/
def history (s : Session) (steps : List Step) (accepts : s.AcceptsAll steps) : History where
  seen v := ∃ before step later, steps = before ++ step :: later ∧
    Scope.Visits (s.after before).machine.globalNames (Program.ofText step.2).program v
  made site f := ∃ before step later, steps = before ++ step :: later ∧
    ∃ M, (s.after before).Occurs step.1 step.2 M ∧ Makes step.1.turns M site f
  leads := by
    rintro v v' ⟨before, step, later, split, visits⟩ leads
    exact ⟨before, step, later, split, visits.step leads⟩
  regular := by
    rintro v ⟨before, step, later, rfl, visits⟩
    have accepted := accepts.append.2
    obtain ⟨p, outcome⟩ := exists_resolved (s.after before) step.2
    obtain ⟨s', yields⟩ := accepted.1.yields outcome
    exact Scope.Visits.regular (formed_ofText step.2) yields visits

/-! ### Statements at the top level -/

section Run

variable {h : History} {globals : List String} {source : Program} {body : List Stmt}
variable {s' : Scope.State} {turns room : Nat} {m m' : Machine}

/-- A statement of a program is located among the globals, whatever ran before.  There are no scopes
around it, so that nothing is asked of the frames. -/
theorem stmtAt_globals (seen : ∀ v, Scope.Visits globals source v → h.seen v)
    (yields : Scope.Yields (Scope.stmts {} source.body) (.initial globals) body s')
    {before later : List Stmt} {st : Stmt} (split : body = before ++ st :: later)
    (frames : Frames Value) : StmtAt h frames Machine.globals st := by
  subst split
  obtain ⟨sources, st', after', s₁, s₂, splitSource, earlier, here⟩ :=
    Scope.stmts_yields_append yields
  have visited : Scope.Visits globals source ⟨[], s₁, .stmt {} st'⟩ := by
    refine .step .start ?_
    rw [splitSource]
    exact .element earlier.run
  have top : s₁.scopes = [] := (Scope.stmts_effect _ _ earlier.run).2.scopes
  refine ⟨⟨seen _ visited, ?_, ?_⟩, here⟩
  · change Stands h.made frames Machine.globals [] s₁.scopes
    rw [top]
    exact .globals
  · change Exact frames Machine.globals s₁.scopes
    rw [top]
    trivial

/-- The statements of a program behind others: they run where these have left off.  The induction is
on the statements in front, none of which makes a jump, since they were run to the end. -/
theorem run_runAll_append {turns room : Nat} : ∀ {ss ss' : List Stmt} {m m₁ : Machine},
    (runAll turns room ss).run m = .ok () m₁ →
      (runAll turns room (ss ++ ss')).run m = (runAll turns room ss').run m₁
  | [], _, _, _, ran => by
    cases ran
    rfl
  | s :: rest, ss', m, m₁, ran => by
    obtain ⟨completion, m₂, first, others⟩ := run_bind_ok.mp ran
    rw [List.cons_append, runAll, EStateM.run_bind, first]
    dsimp only
    cases jumped : completion.jump? with
    | none =>
      rw [jumped] at others
      exact run_runAll_append others
    | some jump =>
      rw [jumped] at others
      exact absurd others run_throw_ok

/-- No jump leaves a statement of a resolved program.  A statement lets out only what is taken
around it, and at the top level nothing is. -/
theorem jump?_eq_none
    (yields : Scope.Yields (Scope.stmts {} source.body) (.initial globals) body s')
    {before later : List Stmt} {st : Stmt} (split : body = before ++ st :: later)
    {completion : Completion} (ran : (execute turns room st Machine.globals).run m
      = .ok completion m') : completion.jump? = none := by
  cases jumped : completion.jump? with
  | none => rfl
  | some jump =>
    have mem : st ∈ body := by
      rw [split]
      exact List.mem_append_cons_self ..
    -- the top level is in no loop and no function
    have lets := Stmt.anyLets_of_mem mem (lets_of_execute ran jumped)
    have taken := Scope.takes_of_stmts _ yields lets
    cases jump <;> cases taken

/-- The statements of a program run in order; `before` are those that have completed.  None of them
makes a jump, so that each leaves the machine to the next one. -/
theorem upholds_runAll (seen : ∀ v, Scope.Visits globals source v → h.seen v)
    (yields : Scope.Yields (Scope.stmts {} source.body) (.initial globals) body s')
    (recorded : ∀ before st later m₁, body = before ++ st :: later →
      (runAll turns room before).run m = .ok () m₁ → ∀ M,
      Reaches turns ⟨room, .execute st Machine.globals, m₁⟩ M →
      ∀ site f, Makes turns M site f → h.made site f) :
    ∀ (rest before later : List Stmt) {m₁ : Machine}, body = before ++ (rest ++ later) →
      (runAll turns room before).run m = .ok () m₁ → Sane h m₁ →
      Upholds h (runAll turns room rest) m₁ fun _ _ => True
  | [], _, _, _, _, _, sane => .pure sane trivial
  | st :: rest, before, later, m₁, split, ran, sane => by
    have follows : Follows h turns ⟨room, .execute st Machine.globals, m₁⟩ :=
      ⟨sane, stmtAt_globals seen yields split _, recorded before st (rest ++ later) m₁ split ran⟩
    refine ((Lockstep.all h turns room).execute follows).bind fun completion m₂ first sane₂ _ => ?_
    have normal := jump?_eq_none yields split first
    rw [normal]
    refine upholds_runAll seen yields recorded rest (before ++ [st]) later (by simpa using split) ?_
      sane₂
    rw [run_runAll_append ran]
    refine run_bind_ok.mpr ⟨completion, m₂, first, ?_⟩
    rw [normal]
    rfl

end Run

/-! ### Whole sessions -/

theorem hadError_start (clock : Clock) (traceLevel : Nat) :
    (start clock traceLevel).hadError = false := by
  simp [hadError, start]

/-- A machine that has run nothing goes with every history.  It holds the clock and nothing else,
and the clock is not bound to `super`. -/
theorem sane_start (h : History) (clock : Clock) (traceLevel : Nat) :
    Sane h (start clock traceLevel).machine := by
  let empty : Machine := { frames := Frames.empty.make none, clock := clock }
  have bare : Sane h empty := by
    refine ⟨by simp [empty], fun f name v holds => ?_, fun f v holds => ?_,
      fun i fields name v at_i => ?_⟩
    · rw [Frames.local?_make] at holds
      simp [Frames.empty, Frames.local?] at holds
    · rw [Frames.local?_make] at holds
      simp [Frames.empty, Frames.local?] at holds
    · simp [empty] at at_i
  -- the one name a session starts with is that of the clock
  have named : Sane h { empty with
      frames := empty.frames.define Machine.globals Native.clock.name (.native .clock) } :=
    bare.define trivial fun same => absurd same (by decide)
  exact named.congr rfl rfl

section Steps

variable {s : Session} {steps before later : List Step} {step : Step}

/-- What the history of a session records of one of its steps: what the resolver has visited, and
the frames that calls in the step have made. -/
theorem recorded_of_step (accepts : s.AcceptsAll steps) (split : steps = before ++ step :: later)
    {p : Program} (outcome : ((s.after before).resolved step.2).outcome = .ok p) :
    (∀ v, Scope.Visits (s.after before).machine.globalNames (Program.ofText step.2).program v →
      (s.history steps accepts).seen v) ∧
    ∀ earlier st rest m₁, p.body = earlier ++ st :: rest →
      (runAll step.1.turns step.1.room earlier).run ((s.after before).poised step.2).machine
        = .ok () m₁ → ∀ M, Reaches step.1.turns ⟨step.1.room, .execute st Machine.globals, m₁⟩ M →
      ∀ site f, Makes step.1.turns M site f → (s.history steps accepts).made site f := by
  refine ⟨fun v visits => ⟨before, step, later, split, visits⟩, ?_⟩
  intro earlier st rest m₁ splitBody ran M reaches site f makes
  exact ⟨before, step, later, split, M, ⟨outcome, splitBody, ran, reaches⟩, makes⟩

/-- The step of a session is accepted where it is taken. -/
theorem accepts_of_split (accepts : s.AcceptsAll steps) (split : steps = before ++ step :: later) :
    (s.after before).Accepts step.2 := by
  rw [split] at accepts
  exact accepts.append.2.1

/-- Nothing was reported before a step of a session. -/
theorem hadError_before (accepts : s.AcceptsAll steps) (clean : s.hadError = false)
    (split : steps = before ++ step :: later) : (s.after before).hadError = false := by
  rw [split] at accepts
  exact hadError_after clean accepts.append.1

/-- The statements of a step run on a machine that goes with the history.  What the resolver has
done to them and what their calls make is recorded there. -/
theorem upholds_step (accepts : s.AcceptsAll steps) (split : steps = before ++ step :: later)
    (sane : Sane (s.history steps accepts) (s.after before).machine) {p : Program}
    (outcome : ((s.after before).resolved step.2).outcome = .ok p) :
    Upholds (s.history steps accepts) (runAll step.1.turns step.1.room p.body)
      ((s.after before).poised step.2).machine fun _ _ => True := by
  obtain ⟨seen, recorded⟩ := recorded_of_step accepts split outcome
  obtain ⟨s', yields⟩ := (accepts_of_split accepts split).yields outcome
  have poised : Sane (s.history steps accepts) ((s.after before).poised step.2).machine :=
    sane.congr (frames_poised _ _).1 (frames_poised _ _).2
  exact upholds_runAll seen yields recorded p.body [] [] (by simp) rfl poised

/-- A machine stays sane when it runs a step, however the run ends.  This is the step of the
induction over a session. -/
theorem sane_step (accepts : s.AcceptsAll steps) (clean : s.hadError = false)
    (split : steps = before ++ step :: later)
    (sane : Sane (s.history steps accepts) (s.after before).machine) :
    Sane (s.history steps accepts) ((s.after before).runText step.1 step.2).1.machine := by
  obtain ⟨p, outcome⟩ := exists_resolved (s.after before) step.2
  have ran := upholds_step accepts split sane outcome
  have interpreted : Sane (s.history steps accepts)
      (((s.after before).poised step.2).interpret step.1 p.body).1.machine := by
    unfold interpret
    unfold Upholds Ensures at ran
    split <;> next result => rw [result] at ran; exact ran.1
  rw [runText_of_accepts (accepts_of_split accepts split) (hadError_before accepts clean split),
    outcome]
  exact interpreted.congr (machine_noteVerdict _ _).1 (machine_noteVerdict _ _).2

/-- From a sane machine on, the machine goes with the history of the whole session.  The induction
is on the steps that are still to come. -/
theorem sane_after_append (accepts : s.AcceptsAll steps) (clean : s.hadError = false) :
    ∀ (more earlier later : List Step), steps = earlier ++ (more ++ later) →
      Sane (s.history steps accepts) (s.after earlier).machine →
      Sane (s.history steps accepts) (s.after (earlier ++ more)).machine
  | [], earlier, _, _, sane => by
    rw [List.append_nil]
    exact sane
  | step :: more, earlier, later, split, sane => by
    have next := sane_step accepts clean split sane
    have taken : s.after (earlier ++ [step]) = ((s.after earlier).runText step.1 step.2).1 := by
      rw [after_append, ← next_eq]
      rfl
    rw [← taken] at next
    have rest := sane_after_append accepts clean more (earlier ++ [step]) later
      (by simpa using split) next
    simpa using rest

/-- At every step of a session that starts afresh the machine goes with its history. -/
theorem sane_after {clock : Clock} {traceLevel : Nat}
    (accepts : (start clock traceLevel).AcceptsAll steps) (split : steps = before ++ later) :
    Sane ((start clock traceLevel).history steps accepts)
      ((start clock traceLevel).after before).machine :=
  sane_after_append accepts (hadError_start clock traceLevel) before [] later split
    (sane_start _ _ _)

/-- A fault that ends a run was raised in it, unless it is a nesting that nothing caught. -/
theorem fault_of_interpret {s : Session} {limits : Limits} {body : List Stmt} {fault : Fault}
    (ends : (s.interpret limits body).2 = .fault fault) :
    fault = .tooDeep ∨
      ∃ m, (runAll limits.turns limits.room body).run s.machine = .error (.fault fault) m := by
  unfold interpret at ends
  split at ends
  · cases ends
  · cases ends
  · next result =>
    cases ends
    exact .inr ⟨_, result⟩
  · cases ends
    exact .inl rfl
  · cases ends

/-- The faults in which a step of a session can end.  Either the nesting became too deep, or a name
was missing in the very frame it was looked for, and nothing else can go wrong. -/
theorem fault_runText {clock : Clock} {traceLevel : Nat}
    (accepts : (start clock traceLevel).AcceptsAll steps) (split : steps = before ++ step :: later)
    {fault : Fault}
    (ends : (((start clock traceLevel).after before).runText step.1 step.2).2 = .fault fault) :
    fault = .tooDeep ∨ ∃ name, fault = .nameMissing name 0 := by
  obtain ⟨p, outcome⟩ := exists_resolved ((start clock traceLevel).after before) step.2
  have ran := upholds_step accepts split (sane_after accepts split) outcome
  rw [runText_of_accepts (accepts_of_split accepts split)
    (hadError_before accepts (hadError_start clock traceLevel) split), outcome] at ends
  change (interpret step.1 (((start clock traceLevel).after before).poised step.2) p.body).2
    = .fault fault at ends
  rcases fault_of_interpret ends with tooDeep | ⟨m, raised⟩
  · exact .inl tooDeep
  · exact .inr ((ran.of_error raised).2 _ rfl)

/-- Every call of the evaluator in a session goes with its history.  The first one of a statement
does, since the statements in front have kept the machine sane, and each call passes it on to those
it makes. -/
theorem Occurs.follows {clock : Clock} {traceLevel : Nat} {M : Moment}
    (accepts : (start clock traceLevel).AcceptsAll steps) (split : steps = before ++ step :: later)
    (occurs : ((start clock traceLevel).after before).Occurs step.1 step.2 M) :
    Follows ((start clock traceLevel).history steps accepts) step.1.turns M := by
  obtain @⟨p, earlier, rest, st, m, outcome, splitBody, ran, reaches⟩ := occurs
  obtain ⟨seen, recorded⟩ := recorded_of_step accepts split outcome
  obtain ⟨s', yields⟩ := (accepts_of_split accepts split).yields outcome
  have poised := (sane_after accepts split).congr (frames_poised _ step.2).1
    (frames_poised _ step.2).2
  have sane := (upholds_runAll seen yields recorded earlier [] (st :: rest) splitBody rfl
    poised).of_ok ran
  have first : Follows ((start clock traceLevel).history steps accepts) step.1.turns
      ⟨step.1.room, .execute st Machine.globals, m⟩ :=
    ⟨sane.1, stmtAt_globals seen yields splitBody _, recorded earlier st rest m splitBody ran⟩
  exact first.reaches reaches

end Steps

end Session
end Arbor
