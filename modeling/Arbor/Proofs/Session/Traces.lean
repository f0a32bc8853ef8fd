import Arbor.Proofs.Session.Split

/-!
# Traces of different detail

A session can be traced at any level.  Whatever it is given, the level decides nothing but what the
trace shows: two sessions that differ in it print the same, report the same, come to the same verdicts
and hold the same values under the same names.  The two traces record one sequence of events, and so
the trace of the lower level is the part of the other that this level shows.

The evaluator cannot look at a trace at all, which `Machine.Alike` has as a theorem for any relation
between traces that is kept by adding one event to both.  To be nested is such a relation.

## Main definitions

* `Trace.shownAt`: the part of a trace that a level shows.
* `Trace.Nested`, `Session.Nested`: a trace and a more detailed one of the same events.

## Main statements

* `Session.levels_unobserved`: the level of the trace changes nothing but the trace.
-/

namespace Arbor

namespace Trace

/-- The events of a trace that a level shows. -/
def shownAt (t : Trace) (level : Nat) : Array Event :=
  t.events.filter fun event => decide (event.level ≤ level)

/-- Two traces of the same events, of levels `j` and `k`. -/
structure Nested (j k : Nat) (t u : Trace) : Prop where
  lower : t.level = j
  upper : u.level = k
  isOpen : u.isOpen = t.isOpen
  events : t.events = u.shownAt j

variable {j k : Nat} {t u : Trace}

@[simp] theorem level_add (t : Trace) (event : Event) : (t.add event).level = t.level := by
  unfold add
  split <;> rfl

@[simp] theorem isOpen_add (t : Trace) (event : Event) : (t.add event).isOpen = t.isOpen := by
  unfold add
  split <;> rfl

theorem events_add (t : Trace) (event : Event) :
    (t.add event).events = if t.shows event then t.events.push event else t.events := by
  unfold add
  split <;> rfl

/-- An event that is added to both traces is shown by the second one if it is by the first.  Whether
it is shown is decided by its level, and the second trace shows more levels. -/
theorem Nested.add (le : j ≤ k) (nested : Nested j k t u) (event : Event) :
    Nested j k (t.add event) (u.add event) := by
  obtain ⟨rfl, rfl, isOpen, events⟩ := nested
  refine ⟨level_add t event, level_add u event, by simp [isOpen], ?_⟩
  unfold shownAt at events ⊢
  rw [events_add, events_add, shows, shows, isOpen, events]
  cases t.isOpen with
  | false => rfl
  | true =>
    by_cases low : event.level ≤ t.level
    · have high : event.level ≤ u.level := Nat.le_trans low le
      simp [low, high]
    · by_cases high : event.level ≤ u.level <;> simp [low, high]

theorem uniform_nested (le : j ≤ k) : Uniform (Nested j k) where
  add event nested := nested.add le event
  close nested := { nested with isOpen := rfl }

end Trace

namespace Session

variable {j k : Nat} {s t : Session}

/-- Two sessions that differ in the trace only, the second one being traced in more detail. -/
structure Nested (j k : Nat) (s t : Session) : Prop where
  agrees : Agrees s t
  trace : Trace.Nested j k s.machine.trace t.machine.trace

theorem Nested.alike (nested : Nested j k s t) : Alike (Trace.Nested j k) #[] s t :=
  ⟨nested.agrees.toUntouched.alike nested.trace, nested.agrees.reports⟩

theorem Nested.of_alike (alike : Alike (Trace.Nested j k) #[] s t)
    (resolutions : t.resolutions = s.resolutions) : Nested j k s t :=
  have untouched := untouched_of_alike alike.machine
  ⟨{ untouched with reports := alike.reports, resolutions := resolutions }, alike.machine.trace⟩

theorem Nested.start (clock : Clock) (j k : Nat) : Nested j k (start clock j) (start clock k) :=
  have agrees : Untouched (Session.start clock j) (Session.start clock k) := .of_trace rfl
  ⟨{ agrees with reports := rfl, resolutions := rfl }, rfl, rfl, rfl, rfl⟩

/-- The two sessions have the same globals. -/
theorem Agrees.globalBindings (agrees : Agrees s t) :
    t.machine.globalBindings = s.machine.globalBindings := by
  unfold Machine.globalBindings
  rw [agrees.frames]

theorem Agrees.globalNames (agrees : Agrees s t) :
    t.machine.globalNames = s.machine.globalNames :=
  congrArg Bindings.names agrees.globalBindings

/-! ### One step -/

/-- Every reference that is resolved is counted, whatever becomes of the program.  Running it adds
none. -/
theorem resolutions_run (limits : Limits) (s : Session) (p : Program) :
    (s.run limits p).1.resolutions
      = s.resolutions + (p.resolve s.machine.globalNames).resolutions.size := by
  unfold run
  dsimp only
  change _ = (s.begun p).resolutions
  split
  · rfl
  · unfold runResolved
    split
    · rfl
    · change (Session.ended _ _).resolutions = _
      rw [resolutions_ended, resolutions_interpret]
      rfl

theorem Nested.run (le : j ≤ k) (nested : Nested j k s t) (limits : Limits) (p : Program) :
    Nested j k (s.run limits p).1 (t.run limits p).1 ∧
      (t.run limits p).2 = (s.run limits p).2 := by
  obtain ⟨alike, verdicts⟩ := nested.alike.run (Trace.uniform_nested le) limits p
  refine ⟨.of_alike alike ?_, verdicts⟩
  rw [resolutions_run, resolutions_run, nested.agrees.globalNames, nested.agrees.resolutions]

/-- An event is noted in both sessions. -/
theorem Nested.note (le : j ≤ k) (nested : Nested j k s t) (event : Event) :
    Nested j k (s.note event) (t.note event) :=
  .of_alike (nested.alike.note (Trace.uniform_nested le) event) nested.agrees.resolutions

theorem Nested.addReports (nested : Nested j k s t) (reports : Array Diagnostic) :
    Nested j k (s.addReports reports) (t.addReports reports) :=
  ⟨{ nested.agrees with reports := congrArg (· ++ reports) nested.agrees.reports }, nested.trace⟩

/-- Running a text at two levels leaves nested traces, and the verdict is the same.  Nothing but the
noting of an event looks at a level. -/
theorem Nested.runText (le : j ≤ k) (nested : Nested j k s t) (limits : Limits) (text : String) :
    Nested j k (s.runText limits text).1 (t.runText limits text).1 ∧
      (t.runText limits text).2 = (s.runText limits text).2 := by
  have read := (nested.note le (.scanned (Scan.ofText text).size)).addReports
    (Scan.ofText text).parse.reports
  unfold Session.runText
  dsimp only
  rw [read.alike.hadError]
  split
  · have noted := (read.note le .grammarErrors).alike.closeTrace (Trace.uniform_nested le)
    exact ⟨.of_alike noted read.agrees.resolutions, rfl⟩
  · exact read.run le limits _

theorem Nested.perform (le : j ≤ k) (nested : Nested j k s t) (task : Task) :
    Nested j k (s.perform task).1 (t.perform task).1 ∧
      (t.perform task).2 = (s.perform task).2 := by
  cases task with
  | text limits text => exact nested.runText le limits text
  | program limits p => exact nested.run le limits p

/-! ### Whole sessions -/

theorem Nested.performAll (le : j ≤ k) (nested : Nested j k s t) (tasks : List Task) :
    Nested j k (s.performAll tasks) (t.performAll tasks) := by
  induction tasks generalizing s t with
  | nil => exact nested
  | cons task rest ih => exact ih (nested.perform le task).1

/-- The level at which a session is traced changes nothing but the trace.  Of two sessions that are
given the same tasks, one traced at a level and one at a higher level, every task comes to the same
verdict and leaves the same frames, the globals among them, the same instances, output and reports;
the references of every program get the same distances; and the events shown at the lower level are
those of the other trace that this level shows, in their order.

Each of the sessions has a clock of its own.  Resolving a program supposes that the clocks showed
the same up to then, and running it that they show the same until its end; neither asks anything of
sessions in which the clock is not read. -/
theorem levels_unobserved (clock clock' : Clock) {j k : Nat} (le : j ≤ k) (earlier : List Task)
    (task : Task) :
    let s := (Session.start clock j).performAll earlier
    let t := (Session.start clock' k).performAll earlier
    ((sameBefore : ∀ n < s.machine.readings, clock'.reading n = clock.reading n) →
      ∀ p : Program, p.resolve t.machine.globalNames = p.resolve s.machine.globalNames) ∧
    ((sameReadings : ∀ n < (s.perform task).1.machine.readings,
        clock'.reading n = clock.reading n) →
      (t.perform task).2 = (s.perform task).2 ∧
      Agrees (s.perform task).1 ((t.perform task).1.withClock clock) ∧
      (t.perform task).1.machine.globalBindings = (s.perform task).1.machine.globalBindings ∧
      (t.perform task).1.hadError = (s.perform task).1.hadError ∧
      (t.perform task).1.hadRuntimeError = (s.perform task).1.hadRuntimeError ∧
      (s.perform task).1.machine.trace.events = (t.perform task).1.machine.trace.shownAt j) := by
  intro s t
  -- the second session is compared with the clock of the first, and then given its own
  let u := (Session.start clock k).performAll earlier
  have before : Nested j k s u := (Nested.start clock j k).performAll le earlier
  have started := told_performAll clock' (Session.start clock k) earlier
  have first (shown : ∀ n < s.machine.readings, clock'.reading n = clock.reading n) :
      t = u.withClock clock' :=
    started.again fun n lt => shown n (before.agrees.readings ▸ lt)
  refine ⟨fun sameBefore p => ?_, fun sameReadings => ?_⟩
  · rw [first sameBefore, ← before.agrees.globalNames]
    rfl
  · obtain ⟨after, verdicts⟩ := before.perform le task
    have ended := told_perform clock' (Prod.eta (u.perform task)).symm
    have shown : ∀ n < (u.perform task).1.machine.readings, clock'.reading n = clock.reading n :=
      fun n lt => sameReadings n (after.agrees.readings ▸ lt)
    have performed : t.perform task = ((u.perform task).1.withClock clock', (u.perform task).2) := by
      rw [first fun n lt => shown n
        (Nat.lt_of_lt_of_le (before.agrees.readings ▸ lt) ended.readings_le)]
      refine ended.again fun n lt => ?_
      rw [started.clock_eq]
      exact shown n lt
    have kept : (u.perform task).1.machine.clock = clock := ended.clock_eq.trans started.clock_eq
    rw [performed]
    refine ⟨verdicts, ?_, after.agrees.globalBindings, after.alike.hadError, ?_,
      after.trace.events⟩
    · rw [withClock_withClock kept]
      exact after.agrees
    · exact congrArg (Array.any · Diagnostic.isRuntime) after.agrees.reports

/-- A call that fails, traced at levels one and four: the stages are shown at the first level, and
the declarations, the call and the statements in between at the second one only.  The program does
not ask for the time, so the clocks have nothing in common. -/
theorem failing_call_traced :
    let task : Task := .text {} "fun f(a) { return -a; } f(nil);"
    let s := (Session.start (.ticking 0) 1).perform task
    let t := (Session.start (.ticking 1700000000000) 4).perform task
    1 ≤ 4 ∧ s.1.machine.readings = 0 ∧ s.2 = .failed ∧ t.2 = .failed ∧
      s.1.machine.trace.events.size = 4 ∧ t.1.machine.trace.events.size = 10 ∧
      s.1.machine.trace.events = t.1.machine.trace.shownAt 1 := by
  have le : 1 ≤ 4 := by decide
  have facts : let task : Task := .text {} "fun f(a) { return -a; } f(nil);"
      let s := (Session.start (.ticking 0) 1).perform task
      let t := (Session.start (.ticking 1700000000000) 4).perform task
      s.1.machine.readings = 0 ∧ s.2 = .failed ∧ s.1.machine.trace.events.size = 4 ∧
        t.1.machine.trace.events.size = 10 := by
    decide +kernel
  -- the task is made opaque, or comparing terms would run it
  generalize Task.text {} "fun f(a) { return -a; } f(nil);" = task at *
  obtain ⟨unread, failed, few, many⟩ := facts
  obtain ⟨-, runs⟩ := levels_unobserved (.ticking 0) (.ticking 1700000000000) le [] task
  obtain ⟨verdicts, -, -, -, -, events⟩ :=
    runs fun n lt => absurd (unread ▸ lt) (Nat.not_lt_zero n)
  exact ⟨le, unread, failed, verdicts.trans failed, few, many, events⟩

/-- At different times the output may differ, whatever the levels. -/
theorem clock_tells_levels_apart :
    let task : Task := .text {} "print clock() < 1700000000000;"
    ((Session.start (.ticking 1699999999995) 0).perform task).1.machine.output = #["true"] ∧
      ((Session.start (.ticking 1700000000000) 1).perform task).1.machine.output = #["false"] := by
  decide +kernel

end Session
end Arbor
