import Arbor.Proofs.Execution.Closed
import Arbor.Proofs.Parallel
import Arbor.Session

/-!
# What a program cannot observe

A program cannot look at the trace or at what was printed before.  So two machines that differ in
nothing else run it alike: they return the same values, stop for the same reasons, print the same
lines, and differ in nothing else afterwards.  The same holds of sessions, whose reports and verdicts
agree.

How the traces are related is a parameter: any relation will do that is kept by adding one event to
both traces.

## Main definitions

* `Machine.Alike`, `Session.Alike`: the two differ in the trace and in earlier output only.

## Main statements

* `Execution.oblivious_runAll`: statements run alike on machines that are alike.
* `Session.Alike.run`: so do programs in sessions.
-/

namespace Arbor

/-- A relation between traces that is kept by adding one event to both. -/
structure Trace.Uniform (traced : Trace → Trace → Prop) : Prop where
  add : ∀ {t u : Trace} (event : Event), traced t u → traced (t.add event) (u.add event)
  close : ∀ {t u : Trace}, traced t u → traced t.close u.close

/-- Any two traces go with each other. -/
theorem Trace.uniform_any : Trace.Uniform fun _ _ => True :=
  ⟨fun _ _ => trivial, fun _ => trivial⟩

/-- Two machines that differ in the trace only, and in that `earlier` was printed on the second one
before anything was on the first. -/
structure Machine.Alike (traced : Trace → Trace → Prop) (earlier : Array String) (m n : Machine) :
    Prop where
  frames : n.frames = m.frames
  fields : n.fields = m.fields
  made : n.made = m.made
  clock : n.clock = m.clock
  readings : n.readings = m.readings
  output : n.output = earlier ++ m.output
  trace : traced m.trace n.trace

namespace Execution

open Eval Stateful

variable {traced : Trace → Trace → Prop} {earlier : Array String} {α β : Type}

/-- A computation that runs alike on machines that are alike. -/
def Oblivious (traced : Trace → Trace → Prop) (earlier : Array String) (x : Eval α) : Prop :=
  ∀ m n, Machine.Alike traced earlier m n →
    Parallel x m x n (fun a m' b n' => a = b ∧ Machine.Alike traced earlier m' n')
      fun e m' d n' => e = d ∧ Machine.Alike traced earlier m' n'

namespace Oblivious

theorem pure (a : α) : Oblivious traced earlier (Pure.pure a) :=
  fun _ _ alike => Parallel.pure ⟨rfl, alike⟩

theorem throw (abort : Abort) : Oblivious traced earlier (MonadExcept.throw abort : Eval α) :=
  fun _ _ alike => Parallel.throw ⟨rfl, alike⟩

theorem bind {x : Eval α} {k : α → Eval β} (first : Oblivious traced earlier x)
    (second : ∀ a, Oblivious traced earlier (k a)) : Oblivious traced earlier (x >>= k) := by
  intro m n alike
  refine (first m n alike).bind ?_
  rintro a m' _ n' ⟨rfl, alike'⟩
  exact second a m' n' alike'

theorem catchOverflow (line : Int) {body : Eval Value} (inner : Oblivious traced earlier body) :
    Oblivious traced earlier (catchOverflow line body) := by
  intro m n alike
  refine Parallel.tryCatch (inner m n alike) ?_
  rintro abort m' _ n' ⟨rfl, alike'⟩
  cases abort <;> exact Parallel.throw ⟨rfl, alike'⟩

/-- The frames and the fields are the same on both machines. -/
theorem look (view : Frames Value → Array (Bindings Value) → α) {k : α → Eval β}
    (rest : ∀ a, Oblivious traced earlier (k a)) :
    Oblivious traced earlier (get >>= fun m => k (view m.frames m.fields)) := by
  intro m n alike
  have same : view n.frames n.fields = view m.frames m.fields := by rw [alike.frames, alike.fields]
  change Parallel (k (view m.frames m.fields)) m (k (view n.frames n.fields)) n _ _
  rw [same]
  exact rest _ m n alike

end Oblivious

/-- Whatever the evaluator does is oblivious of the trace and of what was printed before.  The
effects change the rest of the machine alike, and add the same values to the two outputs. -/
theorem closed_oblivious (uniform : Trace.Uniform traced) (earlier : Array String) :
    Closed fun _ x => Oblivious traced earlier x where
  pure := .pure
  throw := .throw
  bind := .bind
  catchOverflow := .catchOverflow
  look := .look
  note event := fun _ _ alike =>
    Parallel.modify ⟨rfl, { alike with trace := uniform.add event alike.trace }⟩
  print value := fun m n alike => by
    have output : n.output.push value.shown = earlier ++ m.output.push value.shown := by
      rw [alike.output, Array.append_push]
    exact Parallel.modify ⟨rfl, { alike with output := output }⟩
  readClock := fun m n alike => by
    have same : n.clock.reading n.readings = m.clock.reading m.readings := by
      rw [alike.clock, alike.readings]
    exact Parallel.modifyGet ⟨congrArg Value.number same.symm,
      { alike with readings := congrArg (· + 1) alike.readings }⟩
  newFrame enclosing := fun _ _ alike => Parallel.modifyGet ⟨congrArg Frames.size alike.frames.symm,
    { alike with frames := congrArg (Frames.make · (some enclosing)) alike.frames }⟩
  define frame name value := fun _ _ alike => Parallel.modify ⟨rfl,
    { alike with frames := congrArg (Frames.define · frame name value) alike.frames }⟩
  freshId := fun _ _ alike => Parallel.modifyGet ⟨alike.made.symm,
    { alike with made := congrArg (· + 1) alike.made }⟩
  newInstance ofClass := fun _ _ alike => Parallel.modifyGet
    ⟨congrArg (fun fields => Instance.mk fields.size ofClass) alike.fields.symm,
      { alike with fields := congrArg (Array.push · {}) alike.fields }⟩
  setProperty i name value := fun _ _ alike => Parallel.modify ⟨rfl, { alike with
    fields := congrArg (Array.modify · i.id fun fields => fields.put name value) alike.fields }⟩

/-- Statements run alike on machines that are alike. -/
theorem oblivious_runAll (uniform : Trace.Uniform traced) (turns room : Nat)
    (statements : List Stmt) : Oblivious traced earlier (runAll turns room statements) :=
  (closed_oblivious uniform earlier).runAll turns room statements

end Execution

/-! ### Sessions -/

namespace Session

open Stateful

/-- Two sessions that differ in the trace, in earlier output and in what was resolved only. -/
structure Alike (traced : Trace → Trace → Prop) (earlier : Array String) (s t : Session) :
    Prop where
  machine : Machine.Alike traced earlier s.machine t.machine
  reports : t.reports = s.reports

namespace Alike

variable {traced : Trace → Trace → Prop} {earlier : Array String} {s t : Session}

theorem note (uniform : Trace.Uniform traced) (alike : Alike traced earlier s t) (event : Event) :
    Alike traced earlier (s.note event) (t.note event) :=
  ⟨{ alike.machine with trace := uniform.add event alike.machine.trace }, alike.reports⟩

theorem closeTrace (uniform : Trace.Uniform traced) (alike : Alike traced earlier s t) :
    Alike traced earlier s.closeTrace t.closeTrace :=
  ⟨{ alike.machine with trace := uniform.close alike.machine.trace }, alike.reports⟩

theorem hadError (alike : Alike traced earlier s t) : t.hadError = s.hadError := by
  unfold Session.hadError
  rw [alike.reports]

/-- Sessions that are alike stay so when the same events are noted in both, one after the other. -/
theorem noteAll (uniform : Trace.Uniform traced) (alike : Alike traced earlier s t)
    (events : Array Event) : Alike traced earlier (s.noteAll events) (t.noteAll events) := by
  refine ⟨?_, alike.reports⟩
  suffices run : ∀ (events : List Event) {m n : Machine}, Machine.Alike traced earlier m n →
      Machine.Alike traced earlier (events.foldl Machine.note m) (events.foldl Machine.note n) by
    unfold Session.noteAll
    rw [← Array.foldl_toList, ← Array.foldl_toList]
    exact run events.toList alike.machine
  intro events
  induction events with
  | nil => exact fun alike => alike
  | cons event rest ih =>
    intro m n alike
    exact ih { alike with trace := uniform.add event alike.trace }

theorem addResolved (uniform : Trace.Uniform traced) (alike : Alike traced earlier s t)
    (r : Resolved) : Alike traced earlier (s.addResolved r) (t.addResolved r) := by
  obtain ⟨machine, reports⟩ := alike.noteAll uniform (r.resolutions.map Event.resolved)
  exact ⟨machine, congrArg (· ++ r.reports) reports⟩

theorem noteVerdict (uniform : Trace.Uniform traced) (alike : Alike traced earlier s t) :
    ∀ verdict, Alike traced earlier (s.noteVerdict verdict) (t.noteVerdict verdict)
  | .ok | .failed => alike.note uniform _
  | .fault _ | .outOfTurns => alike

/-- Statements come to the same in sessions that are alike: what they do does not depend on the
trace, nor on what was printed before. -/
theorem interpret (uniform : Trace.Uniform traced) (alike : Alike traced earlier s t)
    (limits : Limits) (statements : List Stmt) :
    Alike traced earlier (s.interpret limits statements).1 (t.interpret limits statements).1 ∧
      (t.interpret limits statements).2 = (s.interpret limits statements).2 := by
  have runs := Execution.oblivious_runAll uniform limits.turns limits.room statements
    s.machine t.machine alike.machine
  unfold Session.interpret
  cases ran : (Execution.runAll limits.turns limits.room statements).run s.machine with
  | ok value m =>
    obtain ⟨other, n, same, -, machine⟩ := runs.of_ok ran
    rw [same]
    exact ⟨⟨machine, alike.reports⟩, rfl⟩
  | error abort m =>
    obtain ⟨other, n, same, rfl, machine⟩ := runs.of_error ran
    rw [same]
    cases abort with
    | error error =>
      exact ⟨⟨machine, congrArg (Array.push · (.runtime error)) alike.reports⟩, rfl⟩
    | fault | tooDeep | outOfTurns => exact ⟨⟨machine, alike.reports⟩, rfl⟩

/-- A resolved program is held back in both sessions or in neither, and comes to the same.  Which of
the two is decided by the reports, which are the same. -/
theorem runResolved (uniform : Trace.Uniform traced) (alike : Alike traced earlier s t)
    (limits : Limits) (p : Program) :
    Alike traced earlier (s.runResolved limits p).1 (t.runResolved limits p).1 ∧
      (t.runResolved limits p).2 = (s.runResolved limits p).2 := by
  unfold Session.runResolved
  rw [alike.hadError]
  split
  · exact ⟨alike.note uniform _, rfl⟩
  · obtain ⟨after, same⟩ := (alike.note uniform .interpreting).interpret uniform limits p.body
    dsimp only
    rw [same]
    exact ⟨after.noteVerdict uniform _, rfl⟩

/-- A program comes to the same in sessions that are alike.  It is resolved among the same globals,
so the reports and the distances are the same, and so is what is run. -/
theorem run (uniform : Trace.Uniform traced) (alike : Alike traced earlier s t) (limits : Limits)
    (p : Program) :
    Alike traced earlier (s.run limits p).1 (t.run limits p).1 ∧
      (t.run limits p).2 = (s.run limits p).2 := by
  have names : t.machine.globalNames = s.machine.globalNames := by
    unfold Machine.globalNames Machine.globalBindings
    rw [alike.machine.frames]
  have resolved := (alike.note uniform (.resolving p.body.length)).addResolved uniform
    (p.resolve s.machine.globalNames)
  have first : (s.note (.resolving p.body.length)).machine.globalNames = s.machine.globalNames := rfl
  have second : (t.note (.resolving p.body.length)).machine.globalNames = s.machine.globalNames :=
    names
  unfold Session.run
  dsimp only
  rw [first, second]
  cases (p.resolve s.machine.globalNames).outcome with
  | error fault => exact ⟨resolved.closeTrace uniform, rfl⟩
  | ok program =>
    obtain ⟨after, same⟩ := resolved.runResolved uniform limits program
    exact ⟨after.closeTrace uniform, same⟩

end Alike
end Session
end Arbor
