import Arbor.Proofs.Execution.Closed
import Arbor.Proofs.Session.Reports

/-!
# What a run learns of the time

A machine is given a clock, of which nothing is known, and a program can call it.  This module says
how far that reaches: a run depends on the clock only through the readings that it makes.  A clock
that shows the same at those, and anything whatever after them, leads to the same run.

Agreement is asked for below the number of readings with which the run *ends*, so it has to be
known of each part of a run that it does not take readings back.  Both facts are one judgement,
`Told`, which composes; the evaluator keeps it as it keeps every closed property.

## Main definitions

* `Machine.withClock`, `Session.withClock`: the same with another clock.
* `Machine.Told`: what one machine has learned of the clock when it has become another.

## Main statements

* `Session.told_run`, `Session.told_performAll`: another clock with the same readings changes nothing.
-/

namespace Arbor

namespace Machine

/-- The machine with another clock, read as often as the old one. -/
def withClock (m : Machine) (clock : Clock) : Machine :=
  { m with clock := clock }

/-- A machine has become another, and `again` is what happens if its clock is replaced by one that
shows the same at all readings made up to the end. -/
structure Told (clock : Clock) (m m' : Machine) (again : Prop) : Prop where
  clock_eq : m'.clock = m.clock
  readings_le : m.readings ≤ m'.readings
  again : (∀ n < m'.readings, clock.reading n = m.clock.reading n) → again

namespace Told

variable {clock : Clock} {m m₁ m' : Machine} {first second both : Prop}

/-- As long as the clock is not read, nothing is learned of it. -/
theorem of_eq (same : m'.clock = m.clock) (unread : m'.readings = m.readings) (holds : both) :
    Told clock m m' both :=
  ⟨same, Nat.le_of_eq unread.symm, fun _ => holds⟩

theorem imp (told : Told clock m m' first) (implies : first → both) : Told clock m m' both :=
  { told with again := fun shown => implies (told.again shown) }

/-- What two parts of a run have learned one after the other.  The readings of the first part are
among those of the whole, since the second part only adds to their number. -/
theorem trans (begun : Told clock m m₁ first) (ended : Told clock m₁ m' second)
    (joined : first → second → both) : Told clock m m' both where
  clock_eq := ended.clock_eq.trans begun.clock_eq
  readings_le := Nat.le_trans begun.readings_le ended.readings_le
  again shown := by
    refine joined (begun.again fun n lt => shown n (Nat.lt_of_lt_of_le lt ended.readings_le))
      (ended.again fun n lt => ?_)
    rw [begun.clock_eq]
    exact shown n lt

end Told
end Machine

namespace Execution

open Eval Stateful Machine

variable {α β : Type}

/-- A computation that learns of the clock only what it reads: on a machine with another clock, one
that shows the same at those readings, it ends in the same way. -/
def Consults (x : Eval α) : Prop :=
  ∀ (clock : Clock) (m : Machine), Ensures x m
    (fun a m' => Told clock m m' (x.run (m.withClock clock) = .ok a (m'.withClock clock)))
    fun e m' => Told clock m m' (x.run (m.withClock clock) = .error e (m'.withClock clock))

namespace Consults

theorem pure (a : α) : Consults (Pure.pure a) :=
  fun _ _ => Ensures.pure (.of_eq rfl rfl rfl)

theorem throw (abort : Abort) : Consults (MonadExcept.throw abort : Eval α) :=
  fun clock m => show Told clock m m _ from .of_eq rfl rfl rfl

/-- A computation that has come to a machine, and goes on from there as another one does with either
of the clocks. -/
theorem goOn {clock : Clock} {m m₁ : Machine} {x rest : Eval α} (consults : Consults rest)
    (first : x.run m = rest.run m₁)
    (told : Told clock m m₁ (x.run (m.withClock clock) = rest.run (m₁.withClock clock))) :
    Ensures x m
      (fun a m' => Told clock m m' (x.run (m.withClock clock) = .ok a (m'.withClock clock)))
      fun e m' => Told clock m m' (x.run (m.withClock clock) = .error e (m'.withClock clock)) := by
  refine Ensures.intro (fun a m' ends => ?_) fun e m' ends => ?_
  · exact told.trans ((consults clock m₁).of_ok (first ▸ ends)) Eq.trans
  · exact told.trans ((consults clock m₁).of_error (first ▸ ends)) Eq.trans

/-- Two computations in a row learn what the first one reads and then what the second one does.
If the first one stops, the second reads nothing, and the rest of the run is to stop in the same
way. -/
theorem bind {x : Eval α} {k : α → Eval β} (first : Consults x) (second : ∀ a, Consults (k a)) :
    Consults (x >>= k) := by
  intro clock m
  cases ran : x.run m with
  | ok a m₁ =>
    refine goOn (second a) (by rw [EStateM.run_bind, ran]) ?_
    refine ((first clock m).of_ok ran).imp fun again => ?_
    rw [EStateM.run_bind, again]
  | error e m₁ =>
    refine goOn (Consults.throw e) (by rw [EStateM.run_bind, ran]; rfl) ?_
    refine ((first clock m).of_error ran).imp fun again => ?_
    rw [EStateM.run_bind, again]
    rfl

/-- A handler takes over where the body stopped, with either of the clocks.  It reads on where the
body has stopped reading, so the two pass each other the readings they share. -/
theorem tryCatch {x : Eval α} {handle : Abort → Eval α} (body : Consults x)
    (handler : ∀ abort, Consults (handle abort)) : Consults (tryCatchThe Abort x handle) := by
  have returned {n n' : Machine} {a : α} (ran : x.run n = .ok a n') :
      (tryCatchThe Abort x handle).run n = .ok a n' := by
    change EStateM.tryCatch x handle n = _
    unfold EStateM.tryCatch
    rw [show x n = _ from ran]
  have handled {n n' : Machine} {abort : Abort} (ran : x.run n = .error abort n') :
      (tryCatchThe Abort x handle).run n = (handle abort).run n' := by
    change EStateM.tryCatch x handle n = _
    unfold EStateM.tryCatch
    rw [show x n = _ from ran]
    rfl
  intro clock m
  cases ran : x.run m with
  | ok a m₁ =>
    refine goOn (Consults.pure a) (returned ran) ?_
    exact ((body clock m).of_ok ran).imp returned
  | error abort m₁ =>
    exact goOn (handler abort) (handled ran) (((body clock m).of_error ran).imp handled)

theorem catchOverflow (line : Int) {body : Eval Value} (inner : Consults body) :
    Consults (catchOverflow line body) := by
  refine inner.tryCatch fun abort => ?_
  cases abort <;> exact .throw _

/-- An operation that always returns, and neither reads the clock nor replaces it. -/
theorem of_blind {x : Eval α} (blind : ∀ m, ∃ a m', x.run m = .ok a m' ∧ m'.clock = m.clock ∧
    m'.readings = m.readings ∧ ∀ clock, x.run (m.withClock clock) = .ok a (m'.withClock clock)) :
    Consults x := by
  intro clock m
  obtain ⟨a, m', ran, same, unread, again⟩ := blind m
  refine Ensures.intro (fun b n ends => ?_) fun e n ends => ?_
  · cases ran.symm.trans ends
    exact .of_eq same unread (again clock)
  · cases ran.symm.trans ends

/-- A look at the frames and the fields does not tell the time. -/
theorem look (view : Frames Value → Array (Bindings Value) → α) {k : α → Eval β}
    (rest : ∀ a, Consults (k a)) : Consults (get >>= fun m => k (view m.frames m.fields)) :=
  fun clock m => rest (view m.frames m.fields) clock m

/-- The one thing that is learned of the clock. -/
theorem readClock : Consults readClock := by
  intro clock m
  refine Ensures.modifyGet ⟨rfl, Nat.le_succ _, fun shown => ?_⟩
  have same : clock.reading m.readings = m.clock.reading m.readings :=
    shown m.readings (Nat.lt_succ_self _)
  change EStateM.Result.ok (Value.number (clock.reading m.readings)) _ = _
  rw [same]
  rfl

end Consults

/-- Whatever the evaluator does learns of the clock only what it reads.  This is what has to be said
of its single operations, most of which do not know of the clock at all; that it holds of every walk
then follows in general. -/
theorem closed_consults : Closed fun _ x => Consults x where
  pure := .pure
  throw := .throw
  bind := .bind
  catchOverflow := .catchOverflow
  look := .look
  note _ := .of_blind fun _ => ⟨_, _, rfl, rfl, rfl, fun _ => rfl⟩
  print _ := .of_blind fun _ => ⟨_, _, rfl, rfl, rfl, fun _ => rfl⟩
  readClock := .readClock
  newFrame _ := .of_blind fun _ => ⟨_, _, rfl, rfl, rfl, fun _ => rfl⟩
  define _ _ _ := .of_blind fun _ => ⟨_, _, rfl, rfl, rfl, fun _ => rfl⟩
  freshId := .of_blind fun _ => ⟨_, _, rfl, rfl, rfl, fun _ => rfl⟩
  newInstance _ := .of_blind fun _ => ⟨_, _, rfl, rfl, rfl, fun _ => rfl⟩
  setProperty _ _ _ := .of_blind fun _ => ⟨_, _, rfl, rfl, rfl, fun _ => rfl⟩

end Execution

/-! ### Sessions -/

namespace Session

open Execution Machine

variable {s s' : Session} {verdict : Verdict}

/-- The session with another clock. -/
def withClock (s : Session) (clock : Clock) : Session :=
  { s with machine := s.machine.withClock clock }

/-- A clock can be taken out and put back. -/
theorem withClock_withClock {clock : Clock} (same : s.machine.clock = clock) (clock' : Clock) :
    (s.withClock clock').withClock clock = s := by
  subst same
  rfl

/-- Noting events does not tell the time either. -/
theorem noteAll_withClock (s : Session) (events : Array Event) (clock : Clock) :
    (s.withClock clock).noteAll events = (s.noteAll events).withClock clock := by
  unfold noteAll
  rw [← Array.foldl_toList, ← Array.foldl_toList]
  suffices run : ∀ (events : List Event) (m : Machine),
      events.foldl Machine.note (m.withClock clock)
        = (events.foldl Machine.note m).withClock clock by
    exact congrArg (fun m => { s with machine := m }) (run events.toList s.machine)
  intro events
  induction events with
  | nil => exact fun _ => rfl
  | cons event rest ih => exact fun m => ih (m.note event)

theorem addResolved_withClock (s : Session) (r : Resolved) (clock : Clock) :
    (s.withClock clock).addResolved r = (s.addResolved r).withClock clock := by
  unfold addResolved
  rw [noteAll_withClock]
  rfl

/-- Statements that are executed: with another clock that shows the same at the readings made, they
lead to the same session, with that clock, and to the same verdict. -/
theorem told_interpret (clock : Clock) {limits : Limits} {statements : List Stmt}
    (ran : s.interpret limits statements = (s', verdict)) :
    Told clock s.machine s'.machine
      ((s.withClock clock).interpret limits statements = (s'.withClock clock, verdict)) := by
  have runs := closed_consults.runAll limits.turns limits.room statements clock s.machine
  have other : (s.withClock clock).machine = s.machine.withClock clock := rfl
  unfold interpret at ran ⊢
  rw [other]
  cases ended : (runAll limits.turns limits.room statements).run s.machine with
  | ok value m =>
    rw [ended] at ran
    cases ran
    refine (runs.of_ok ended).imp fun again => ?_
    rw [again]
    rfl
  | error abort m =>
    rw [ended] at ran
    cases abort <;>
    · cases ran
      refine (runs.of_error ended).imp fun again => ?_
      rw [again]
      rfl

/-- Nothing is learned of the clock as long as programs could not see a change. -/
theorem Untouched.told {clock : Clock} {both : Prop} (untouched : Untouched s s') (holds : both) :
    Told clock s.machine s'.machine both :=
  .of_eq untouched.clock untouched.readings holds

/-- A resolved program that is run, or held back by what was reported.  With the other clock it is
held back in the same cases, as reports do not show the time. -/
theorem told_runResolved (clock : Clock) {limits : Limits} {p : Program}
    (ran : s.runResolved limits p = (s', verdict)) :
    Told clock s.machine s'.machine
      ((s.withClock clock).runResolved limits p = (s'.withClock clock, verdict)) := by
  unfold runResolved at ran ⊢
  rw [show (s.withClock clock).hadError = s.hadError from rfl]
  split at ran
  · next had =>
    cases ran
    rw [if_pos had]
    exact .of_eq rfl rfl rfl
  · next clean =>
    rw [if_neg clean]
    cases ended : (s.note .interpreting).interpret limits p.body with
    | mk s₁ verdict₁ =>
    rw [ended] at ran
    cases ran
    have told := told_interpret clock ended
    have noted : Untouched s₁ (s₁.noteVerdict verdict) := by
      cases verdict <;> exact .of_trace rfl
    have other : (s₁.withClock clock).noteVerdict verdict
        = (s₁.noteVerdict verdict).withClock clock := by
      cases verdict <;> rfl
    refine ((untouched_note s .interpreting).told trivial).trans
      (told.trans (noted.told other) ?_) fun _ => id
    intro again other
    have noting : (s.withClock clock).note .interpreting = (s.note .interpreting).withClock clock :=
      rfl
    rw [noting, again]
    exact congrArg (·, verdict) other

/-- A program that is run.  Its resolution reads no clock, and comes to the same with both. -/
theorem told_run (clock : Clock) {limits : Limits} {p : Program}
    (ran : s.run limits p = (s', verdict)) :
    Told clock s.machine s'.machine
      ((s.withClock clock).run limits p = (s'.withClock clock, verdict)) := by
  have resolved : Untouched s ((s.note (.resolving p.body.length)).addResolved
      (p.resolve s.machine.globalNames)) :=
    (untouched_note s _).trans (untouched_addResolved _ _)
  have other : ((s.withClock clock).note (.resolving p.body.length)).addResolved
      (p.resolve s.machine.globalNames)
        = ((s.note (.resolving p.body.length)).addResolved
          (p.resolve s.machine.globalNames)).withClock clock :=
    addResolved_withClock (s.note (.resolving p.body.length)) _ clock
  have names : ((s.withClock clock).note (.resolving p.body.length)).machine.globalNames
      = s.machine.globalNames := rfl
  rw [run_eq s p (globalNames_note s _)] at ran
  rw [run_eq (s.withClock clock) p names, other]
  cases outcome : (p.resolve s.machine.globalNames).outcome with
  | error fault =>
    rw [outcome] at ran
    cases ran
    exact (resolved.trans (untouched_closeTrace _)).told rfl
  | ok p' =>
    rw [outcome] at ran
    dsimp only at ran ⊢
    obtain ⟨rfl, rfl⟩ := Prod.mk.inj ran
    have told := told_runResolved clock (Prod.eta (((s.note (.resolving p.body.length)).addResolved
      (p.resolve s.machine.globalNames)).runResolved limits p')).symm
    refine (resolved.told trivial).trans (told.trans (.of_eq rfl rfl trivial) ?_) fun _ => id
    intro again _
    rw [again]
    rfl

/-- A text that is run.  Scanning and parsing it read no clock, so all that is learned of the clock
is learned in the run of its program. -/
theorem told_runText (clock : Clock) {limits : Limits} {text : String}
    (ran : s.runText limits text = (s', verdict)) :
    Told clock s.machine s'.machine
      ((s.withClock clock).runText limits text = (s'.withClock clock, verdict)) := by
  unfold runText at ran ⊢
  dsimp only at ran ⊢
  let read := (s.note (.scanned (Scan.ofText text).size)).addReports (Scan.ofText text).parse.reports
  have untouched : Untouched s read := .of_trace rfl
  change (if read.hadError then _ else _) = _ at ran
  change Told clock _ _ ((if read.hadError then _ else _) = _)
  split at ran
  · next had =>
    cases ran
    rw [if_pos had]
    have ended := (untouched_note read .grammarErrors).trans (untouched_closeTrace _)
    exact (untouched.trans ended).told rfl
  · next clean =>
    rw [if_neg clean]
    exact (untouched.told trivial).trans (told_run clock ran) fun _ => id

theorem told_perform (clock : Clock) {task : Task} (ran : s.perform task = (s', verdict)) :
    Told clock s.machine s'.machine
      ((s.withClock clock).perform task = (s'.withClock clock, verdict)) := by
  unfold perform at ran ⊢
  cases task with
  | text limits text => exact told_runText clock ran
  | program limits p => exact told_run clock ran

/-- All that a session is given: a clock that shows the same at the readings made leads to the same
session, whatever it would show after them. -/
theorem told_performAll (clock : Clock) (s : Session) (tasks : List Task) :
    Told clock s.machine (s.performAll tasks).machine
      ((s.withClock clock).performAll tasks = (s.performAll tasks).withClock clock) := by
  induction tasks generalizing s with
  | nil => exact .of_eq rfl rfl rfl
  | cons task rest ih =>
    have onward (t : Session) : t.performAll (task :: rest) = (t.perform task).1.performAll rest :=
      rfl
    cases performed : s.perform task with
    | mk first verdict =>
    rw [onward, onward, performed]
    refine (told_perform clock performed).trans (ih first) fun again later => ?_
    rw [again]
    exact later

end Session
end Arbor
