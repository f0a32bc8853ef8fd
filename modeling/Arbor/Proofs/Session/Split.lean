import Arbor.Proofs.Execution.Names
import Arbor.Proofs.Execution.Unobserved
import Arbor.Proofs.Scope.Resumed
import Arbor.Proofs.Session.Readings

/-!
# Programs in steps

A program may be cut in two and run in two steps of a session.  The second step is resolved anew, from
the names that the first has left among the globals of the machine, and the one walk over the whole
program has in hand the names that the first part declares; these are at least as many, since a run
binds among the globals only what its statements introduce.  So both find the same distances, and as
the machine is the same up to the trace when the second part begins to run, all that follows is.

## Main statements

* `Program.resolve_append`: two programs resolved one after the other.
* `Session.run_append`: a program that runs in two steps runs in one.
-/

namespace Arbor

namespace Scope

open Stateful

/-- In the beginning the names that are global already are known and ready, and there are no
others. -/
theorem get?_initial (globals : List String) (name : String) :
    (State.initial globals).globals.get? name = if name ∈ globals then some true else none := by
  suffices run : ∀ (globals : List String) (known : Bindings Bool),
      (globals.foldl (fun known name => known.put name true) known).get? name
        = if name ∈ globals then some true else known.get? name by
    exact run globals Bindings.empty
  intro globals
  induction globals with
  | nil => exact fun known => (if_neg List.not_mem_nil).symm
  | cons first rest ih =>
    intro known
    rw [List.foldl_cons, ih, Bindings.get?_put]
    by_cases later : name ∈ rest
    · rw [if_pos later, if_pos (List.mem_cons_of_mem _ later)]
    · by_cases here : name = first
      · rw [if_neg later, if_pos here, if_pos (List.mem_cons.mpr (.inl here))]
      · rw [if_neg later, if_neg here, if_neg fun mem => (List.mem_cons.mp mem).elim here later]

/-- Behind statements at the top level at least the names are known that a later step begins with.
All of them are ready, since each statement settles the names it introduces. -/
theorem covers_initial {context : Context} {sts sts' : List Stmt} {globals later : List String}
    {s : State} (ran : (stmts context sts).run (.initial globals) = .ok sts' s)
    (silent : s.reports = #[])
    (known : ∀ name ∈ later, name ∈ globals ∨ name ∈ introducedBy sts) :
    Covers s.resolutions (.initial later) s := by
  have settled := globals_stmts context ran rfl
  have ready : ∀ name, (State.initial globals).globals.get? name ≠ some false := by
    intro name
    rw [get?_initial]
    split <;> exact nofun
  refine ⟨(stmts_effect context sts ran).2.scopes, ⟨fun name knows => ?_, fun name unready => ?_⟩,
    fun _ => silent, Array.append_empty.symm⟩
  · unfold Bindings.contains at knows
    rw [get?_initial] at knows
    split at knows
    · next mem =>
      refine settled.contains ((known name mem).imp_left fun global => ?_)
      unfold Bindings.contains
      rw [get?_initial, if_pos global]
      rfl
    · cases knows
  · exact absurd unready (settled.ne_false ready name)

end Scope

namespace Program

open Scope Stateful

/-- A program that was resolved without a fault, as a walk.  Its reports and its distances are those
that the walk has collected. -/
theorem run_of_resolve {globals : List String} {p p' : Program}
    (outcome : (p.resolve globals).outcome = .ok p') :
    ∃ s, (stmts {} p.body).run (.initial globals) = .ok p'.body s ∧
      s.reports = (p.resolve globals).reports ∧ s.resolutions = (p.resolve globals).resolutions := by
  unfold Program.resolve at outcome ⊢
  dsimp only at outcome ⊢
  split at outcome
  · next body s ran =>
    cases outcome
    exact ⟨s, ran, rfl, rfl⟩
  · cases outcome

/-- A walk that comes to an end is the resolution of the program. -/
theorem resolve_of_run {globals : List String} {p : Program} {body : List Stmt} {s : State}
    (ran : (stmts {} p.body).run (.initial globals) = .ok body s) :
    p.resolve globals = ⟨.ok ⟨body⟩, s.reports, s.resolutions⟩ := by
  unfold Program.resolve
  dsimp only
  split
  · next walked =>
    cases ran.symm.trans walked
    rfl
  · next walked => cases ran.symm.trans walked

/-- Two programs that are resolved one after the other without a report are resolved together, with
the same distances, if the names that are global for the second one were global for the first or are
introduced by it. -/
theorem resolve_append {globals later : List String} {p p' q q' : Program}
    (first : (p.resolve globals).outcome = .ok p') (quiet : (p.resolve globals).reports = #[])
    (second : (q.resolve later).outcome = .ok q') (silent : (q.resolve later).reports = #[])
    (known : ∀ name ∈ later, name ∈ globals ∨ name ∈ introducedBy p.body) :
    (Program.mk (p.body ++ q.body)).resolve globals = ⟨.ok ⟨p'.body ++ q'.body⟩, #[],
      (p.resolve globals).resolutions ++ (q.resolve later).resolutions⟩ := by
  obtain ⟨s, ranFirst, reports, resolved⟩ := run_of_resolve first
  obtain ⟨t, ranSecond, reports', resolved'⟩ := run_of_resolve second
  rw [quiet] at reports
  rw [silent] at reports'
  obtain ⟨u, again, none, all⟩ := stmts_of_covers (covers_initial ranFirst reports known) ranSecond
    reports'
  have whole : (stmts {} (p.body ++ q.body)).run (.initial globals)
      = .ok (p'.body ++ q'.body) u := by
    rw [stmts_eq_mapM] at ranFirst again ⊢
    rw [List.mapM_append, run_bind_ok]
    refine ⟨_, s, ranFirst, ?_⟩
    rw [run_bind_ok]
    exact ⟨_, u, again, rfl⟩
  rw [resolve_of_run whole, none, all, resolved, resolved']

end Program

/-! ### What a run leaves among the globals -/

theorem Machine.mem_globalNames {m : Machine} {name : String} :
    name ∈ m.globalNames ↔ (m.frames.local? Machine.globals name).isSome = true := by
  rw [← Frames.mem_names]
  rfl

namespace Execution

/-- Statements at the top level bind among the globals at most what they introduce.  Statements
inside of them run in frames of their own. -/
theorem binds_runAll (turns room : Nat) (statements : List Stmt) :
    Binds Machine.globals (Scope.introducedBy statements) (runAll turns room statements) := by
  induction statements with
  | nil => exact .pure ()
  | cons s rest ih =>
    have first : Binds Machine.globals (Scope.introducedBy (s :: rest))
        (execute turns room s Machine.globals) :=
      ((Keeping.all turns room).execute s Machine.globals).weaken fun _ mem =>
        List.mem_append_left _ mem
    refine Binds.bind first fun completion => ?_
    cases completion.jump? with
    | none => exact ih.weaken fun _ mem => List.mem_append_right _ mem
    | some jump => exact .throw _

/-- So the names among the globals after a run were there before or are introduced by it. -/
theorem mem_globalNames_of_runAll {turns room : Nat} {statements : List Stmt} {m m' : Machine}
    (there : Machine.globals < m.frames.size)
    (ran : (runAll turns room statements).run m = .ok () m') {name : String}
    (mem : name ∈ m'.globalNames) :
    name ∈ m.globalNames ∨ name ∈ Scope.introducedBy statements := by
  have changes := (binds_runAll turns room statements).of_ok ran
  rcases changes.adds _ there name (Machine.mem_globalNames.mp mem) with held | added
  · exact .inl (Machine.mem_globalNames.mpr held)
  · exact .inr added.2

end Execution

namespace Session

open Execution Scope Stateful

variable {limits : Limits} {s t : Session} {p p' q q' : Program}

/-! ### One step -/

/-- The session as the statements of a program begin to run. -/
def begun (s : Session) (p : Program) : Session :=
  ((s.note (.resolving p.body.length)).addResolved (p.resolve s.machine.globalNames)).note
    .interpreting

/-- The session when they have come to an end. -/
def ended (s : Session) (verdict : Verdict) : Session :=
  (s.noteVerdict verdict).closeTrace

theorem untouched_begun (s : Session) (p : Program) : Untouched s (s.begun p) :=
  ((untouched_note s _).trans (untouched_addResolved _ _)).trans (untouched_note _ _)

theorem reports_begun (s : Session) (p : Program) :
    (s.begun p).reports = s.reports ++ (p.resolve s.machine.globalNames).reports :=
  rfl

theorem resolutions_begun (s : Session) (p : Program) :
    (s.begun p).resolutions
      = s.resolutions + (p.resolve s.machine.globalNames).resolutions.size :=
  rfl

theorem resolutions_interpret (limits : Limits) (s : Session) (statements : List Stmt) :
    (s.interpret limits statements).1.resolutions = s.resolutions := by
  unfold interpret
  split <;> rfl

theorem untouched_ended (s : Session) (verdict : Verdict) : Untouched s (s.ended verdict) := by
  cases verdict <;> exact .of_trace rfl

theorem reports_ended (s : Session) (verdict : Verdict) : (s.ended verdict).reports = s.reports := by
  cases verdict <;> rfl

theorem resolutions_ended (s : Session) (verdict : Verdict) :
    (s.ended verdict).resolutions = s.resolutions := by
  cases verdict <;> rfl

/-- A program on which nothing is reported is executed, provided that nothing was reported
before. -/
theorem run_of_silent (clean : s.hadError = false)
    (outcome : (p.resolve s.machine.globalNames).outcome = .ok p')
    (silent : (p.resolve s.machine.globalNames).reports = #[]) :
    s.run limits p = (((s.begun p).interpret limits p'.body).1.ended
      ((s.begun p).interpret limits p'.body).2, ((s.begun p).interpret limits p'.body).2) := by
  have opened : ((s.note (.resolving p.body.length)).addResolved
      (p.resolve s.machine.globalNames)).hadError = false :=
    hadError_addReports_empty (s := s) clean silent
  rw [run_eq s p (globalNames_note s _), outcome]
  dsimp only
  unfold runResolved
  rw [if_neg (Bool.eq_false_iff.mp opened)]
  rfl

/-- A step that passes had nothing reported on its program, and its statements completed.  With any
report it would have been held back, and with any stop its verdict would be another. -/
theorem run_ok {s₁ : Session} (ran : s.run limits p = (s₁, .ok)) :
    s.hadError = false ∧ (p.resolve s.machine.globalNames).reports = #[] ∧
      ∃ p' m, (p.resolve s.machine.globalNames).outcome = .ok p' ∧
        (runAll limits.turns limits.room p'.body).run (s.begun p).machine = .ok () m ∧
        s₁ = Session.ended { s.begun p with machine := m } .ok := by
  have ends := ends_run limits (.refl s) Array.append_empty.symm p
  rw [Array.empty_append, ran] at ends
  have opened : (s.addReports (p.resolve s.machine.globalNames).reports).hadError = false := by
    cases ends with
    | passed opened _ _ => exact opened
  have gate := hadError_addReports_iff (s := s) (Program.onText_resolve s.machine.globalNames p)
  rw [opened] at gate
  have clean : s.hadError = false := by
    cases had : s.hadError with
    | false => rfl
    | true => cases gate.mpr (.inl had)
  have silent : (p.resolve s.machine.globalNames).reports = #[] :=
    Classical.byContradiction fun reported => nomatch gate.mpr (.inr reported)
  refine ⟨clean, silent, ?_⟩
  cases outcome : (p.resolve s.machine.globalNames).outcome with
  | error fault =>
    rw [run_eq s p (globalNames_note s _), outcome] at ran
    cases ran
  | ok p' =>
    rw [run_of_silent clean outcome silent] at ran
    unfold interpret at ran
    split at ran
    · next m completed =>
      obtain ⟨rfl, -⟩ := Prod.mk.inj ran
      exact ⟨p', m, rfl, completed, rfl⟩
    · cases (Prod.mk.inj ran).2
    · cases (Prod.mk.inj ran).2
    · cases (Prod.mk.inj ran).2
    · cases (Prod.mk.inj ran).2

/-- What a step prints comes after what was printed before. -/
theorem exists_output_run (limits : Limits) (s : Session) (p : Program) :
    ∃ out, (s.run limits p).1.machine.output = s.machine.output ++ out := by
  have alike : Alike (fun _ _ => True) s.machine.output
      { s with machine := { s.machine with output := #[] } } s :=
    ⟨⟨rfl, rfl, rfl, rfl, rfl, Array.append_empty.symm, trivial⟩, rfl⟩
  exact ⟨_, (alike.run Trace.uniform_any limits p).1.machine.output⟩

/-! ### Two steps -/

/-- Two sessions that differ in the trace only. -/
structure Agrees (s t : Session) : Prop extends Untouched s t where
  reports : t.reports = s.reports
  resolutions : t.resolutions = s.resolutions

/-- Programs cannot tell machines apart that are alike, with nothing printed in one of them only. -/
theorem untouched_of_alike {traced : Trace → Trace → Prop}
    (alike : Machine.Alike traced #[] s.machine t.machine) : Untouched s t :=
  ⟨alike.frames, alike.fields, alike.made, alike.output.trans Array.empty_append, alike.clock,
    alike.readings⟩

/-- The other way round, all that is left to be said is how the traces go with each other. -/
theorem Untouched.alike {traced : Trace → Trace → Prop} (untouched : Untouched s t)
    (traces : traced s.machine.trace t.machine.trace) :
    Machine.Alike traced #[] s.machine t.machine :=
  ⟨untouched.frames, untouched.fields, untouched.made, untouched.clock, untouched.readings,
    untouched.output.trans Array.empty_append.symm, traces⟩

theorem Alike.ended (alike : Alike (fun _ _ => True) #[] s t) (verdict : Verdict) :
    Alike (fun _ _ => True) #[] (s.ended verdict) (t.ended verdict) :=
  (alike.noteVerdict Trace.uniform_any verdict).closeTrace Trace.uniform_any

/-- Statements that follow others which have completed. -/
theorem interpret_append {ss ss' : List Stmt} {m : Machine}
    (ran : (runAll limits.turns limits.room ss).run s.machine = .ok () m) :
    s.interpret limits (ss ++ ss') = Session.interpret limits { s with machine := m } ss' := by
  unfold interpret
  rw [run_runAll_append ran]

/-- The names that are global in the second of two steps were so in the first or are introduced by
it. -/
theorem mem_globalNames_of_run_ok {s₁ : Session} (there : Machine.globals < s.machine.frames.size)
    (ran : s.run limits p = (s₁, .ok)) {name : String} (mem : name ∈ s₁.machine.globalNames) :
    name ∈ s.machine.globalNames ∨ name ∈ introducedBy p.body := by
  obtain ⟨-, -, p', m, outcome, completed, rfl⟩ := run_ok ran
  have frames := (untouched_begun s p).frames
  obtain ⟨_, walked, -, -⟩ := Program.run_of_resolve outcome
  have names : (s.begun p).machine.globalNames = s.machine.globalNames := by
    unfold Machine.globalNames Machine.globalBindings
    rw [frames]
  rw [← (stmts_effect _ _ walked).1, ← names]
  exact mem_globalNames_of_runAll (by rwa [frames]) completed mem

/-- Two programs run in two steps as they run in one: the sessions agree, and so do the verdicts.
The second program is resolved alike at the end of the first one and on its own, since it makes no
difference to the resolver which globals are known, as long as those that are known are ready. -/
theorem agrees_run_append {s₁ : Session} (there : Machine.globals < s.machine.frames.size)
    (ran : s.run limits p = (s₁, .ok))
    (outcome : (q.resolve s₁.machine.globalNames).outcome = .ok q')
    (silent : (q.resolve s₁.machine.globalNames).reports = #[]) :
    ∃ p', (p.resolve s.machine.globalNames).outcome = .ok p' ∧
      (Program.mk (p.body ++ q.body)).resolve s.machine.globalNames
        = ⟨.ok ⟨p'.body ++ q'.body⟩, #[], (p.resolve s.machine.globalNames).resolutions
            ++ (q.resolve s₁.machine.globalNames).resolutions⟩ ∧
      Agrees (s₁.run limits q).1 (s.run limits ⟨p.body ++ q.body⟩).1 ∧
      (s.run limits ⟨p.body ++ q.body⟩).2 = (s₁.run limits q).2 := by
  have known : ∀ name ∈ s₁.machine.globalNames,
      name ∈ s.machine.globalNames ∨ name ∈ introducedBy p.body :=
    fun _ mem => mem_globalNames_of_run_ok there ran mem
  obtain ⟨clean, quiet, p', m, first, completed, rfl⟩ := run_ok ran
  have whole := Program.resolve_append first quiet outcome silent known
  refine ⟨p', first, whole, ?_⟩
  generalize joined : Program.mk (p.body ++ q.body) = pq at whole
  generalize mid : Session.ended { s.begun p with machine := m } .ok = s₁ at *
  have cleanMid : s₁.hadError = false := by
    rw [← mid]
    exact hadError_addReports_empty clean quiet
  -- the first program comes to the same at the head of the whole one
  have begins : Untouched (s.begun p) (s.begun pq) :=
    (untouched_begun s p).symm.trans (untouched_begun s pq)
  obtain ⟨_, m', again, -, same⟩ := (oblivious_runAll Trace.uniform_any limits.turns limits.room
    p'.body _ _ (begins.alike trivial)).of_ok completed
  have kept : Untouched { s.begun p with machine := m } { s.begun pq with machine := m' } :=
    untouched_of_alike same
  have left : Untouched { s.begun p with machine := m } (s₁.begun q) := by
    refine Untouched.trans ?_ (untouched_begun s₁ q)
    rw [← mid]
    exact untouched_ended _ _
  have none : (pq.resolve s.machine.globalNames).reports = #[] := by rw [whole]
  have reports : (s₁.begun q).reports = (s.begun pq).reports := by
    rw [reports_begun, reports_begun, silent, none, ← mid, reports_ended]
    change s.reports ++ (p.resolve s.machine.globalNames).reports ++ #[] = _
    rw [quiet, Array.append_empty]
  have poised : Alike (fun _ _ => True) #[] { s.begun pq with machine := m' } (s₁.begun q) :=
    ⟨(kept.symm.trans left).alike trivial, reports⟩
  obtain ⟨finished, verdicts⟩ := poised.interpret Trace.uniform_any limits q'.body
  rw [run_of_silent cleanMid outcome silent, run_of_silent clean (by rw [whole]) none,
    interpret_append again, ← verdicts]
  refine ⟨?_, rfl⟩
  have after := finished.ended (Session.interpret limits (s₁.begun q) q'.body).2
  refine ⟨(untouched_of_alike after.machine).symm, after.reports.symm, ?_⟩
  rw [resolutions_ended, resolutions_ended, resolutions_interpret, resolutions_interpret,
    resolutions_begun s₁, ← mid, resolutions_ended]
  change s.resolutions + (pq.resolve s.machine.globalNames).resolutions.size = s.resolutions + _ + _
  rw [whole, Array.size_append, mid, Nat.add_assoc]

/-- A program that runs in two steps of a session runs in one.  If the first of two programs that
were read from texts passes in a fresh session and nothing is reported on the second when it is
resolved after that, then nothing is reported on the two as one program either, whose references get
the distances they got in steps; and its run in a fresh session prints what the two steps printed,
adds the same reports, comes to the verdict of the second step, and leaves the same frames, the
globals among them, and the same instances.

The two sessions do not run at the same time, and so each has a clock of its own.  What is said of
the runs supposes that the second clock shows what the first one showed, as often as the steps read
it: `sameReadings` asks nothing of programs that never want to know the time. -/
theorem run_append {clock clock' : Clock} {level : Nat} {limits : Limits} {first second : String}
    {s₁ s₂ : Session} {verdict : Verdict}
    (ranFirst : (start clock level).run limits (Program.ofText first).program = (s₁, .ok))
    (ranSecond : s₁.run limits (Program.ofText second).program = (s₂, verdict))
    (silent : ((Program.ofText second).program.resolve s₁.machine.globalNames).reports = #[]) :
    let whole : Program :=
      ⟨(Program.ofText first).program.body ++ (Program.ofText second).program.body⟩
    let resolvedFirst :=
      (Program.ofText first).program.resolve (start clock level).machine.globalNames
    let resolvedSecond := (Program.ofText second).program.resolve s₁.machine.globalNames
    ∃ p q, resolvedFirst.outcome = .ok p ∧ resolvedSecond.outcome = .ok q ∧
      whole.resolve (start clock' level).machine.globalNames
        = ⟨.ok ⟨p.body ++ q.body⟩, #[], resolvedFirst.resolutions ++ resolvedSecond.resolutions⟩ ∧
      ((sameReadings : ∀ n < s₂.machine.readings, clock'.reading n = clock.reading n) →
        ∃ s, (start clock' level).run limits whole = (s, verdict) ∧
          (∃ out, s₂.machine.output = s₁.machine.output ++ out ∧
            s.machine.output = s₁.machine.output ++ out) ∧
          s.machine.globalBindings = s₂.machine.globalBindings ∧
          Agrees s₂ (s.withClock clock)) := by
  have there : Machine.globals < (start clock level).machine.frames.size := by
    change 0 < ((Frames.empty.make none).define Machine.globals Native.clock.name _).size
    simp
  obtain ⟨q, outcome⟩ := Program.exists_resolve (formed_ofText second) s₁.machine.globalNames
  obtain ⟨p, outcomeFirst, whole, agrees, verdicts⟩ :=
    agrees_run_append there ranFirst outcome silent
  obtain ⟨out, prints⟩ := exists_output_run limits s₁ (Program.ofText second).program
  rw [ranSecond] at agrees verdicts prints
  dsimp only
  refine ⟨p, q, outcomeFirst, outcome, whole, fun sameReadings => ?_⟩
  -- the whole program is run with the clock of the steps first, and then with its own
  cases ran : (start clock level).run limits
    ⟨(Program.ofText first).program.body ++ (Program.ofText second).program.body⟩ with
  | mk s other =>
  rw [ran] at agrees verdicts
  obtain rfl : other = verdict := verdicts
  have told := told_run clock' ran
  have kept : s.machine.clock = clock := told.clock_eq
  have again := told.again fun n lt => sameReadings n (agrees.readings ▸ lt)
  have globals : s.machine.globalBindings = s₂.machine.globalBindings := by
    unfold Machine.globalBindings
    rw [agrees.frames]
  refine ⟨s.withClock clock', again, ⟨out, prints, agrees.output.trans prints⟩, globals, ?_⟩
  rw [withClock_withClock kept]
  exact agrees

/-- A function is declared in one step and called in the next, where a global has changed that it
refers to.  The clock is read once, and no more than that reading must be the same. -/
theorem closure_crosses_steps :
    let first := (Program.ofText "var a = true; fun f() { return a; }").program
    let second := (Program.ofText "a = clock() < 0; print f();").program
    let clock := Clock.ticking 0
    let stopped : Clock := ⟨fun _ => 0⟩
    let s₁ := ((start clock 0).run {} first).1
    ((start clock 0).run {} first).2 = .ok ∧
      (second.resolve s₁.machine.globalNames).reports = #[] ∧
      (s₁.run {} second).1.machine.readings = 1 ∧
      (∀ n < 1, stopped.reading n = clock.reading n) ∧
      ((start stopped 0).run {} ⟨first.body ++ second.body⟩).2 = .ok ∧
      ((start stopped 0).run {} ⟨first.body ++ second.body⟩).1.machine.output = #["false"] := by
  have facts : let first := (Program.ofText "var a = true; fun f() { return a; }").program
      let second := (Program.ofText "a = clock() < 0; print f();").program
      let s₁ := ((start (.ticking 0) 0).run {} first).1
      ((start (.ticking 0) 0).run {} first).2 = .ok ∧
        (second.resolve s₁.machine.globalNames).reports.size = 0 ∧
        (s₁.run {} second).2 = .ok ∧ (s₁.run {} second).1.machine.readings = 1 ∧
        (s₁.run {} second).1.machine.output = #["false"] := by
    decide +kernel
  have shown : ∀ n < 1, (⟨fun _ => 0⟩ : Clock).reading n = (Clock.ticking 0).reading n := by
    decide +kernel
  dsimp only at facts ⊢
  generalize reading : (Program.ofText "var a = true; fun f() { return a; }").program = first at *
  generalize next : (Program.ofText "a = clock() < 0; print f();").program = second at *
  cases begins : (start (.ticking 0) 0).run {} first with
  | mk s₁ verdict =>
  rw [begins] at facts
  dsimp only at facts
  obtain ⟨rfl, quiet, passed, once, prints⟩ := facts
  have silent := Array.size_eq_zero_iff.mp quiet
  subst reading next
  obtain ⟨_, _, -, -, -, runs⟩ := run_append begins (Prod.eta _).symm silent
  obtain ⟨s, ran, -, -, agrees⟩ := runs (by rwa [once])
  rw [ran]
  dsimp only
  exact ⟨rfl, silent, once, shown, passed, agrees.output.trans prints⟩

/-- Without that, the two differ: the time is kept in one step and compared in the next.  The steps
are run just before a certain time and the whole program at that time. -/
theorem clock_tells_steps_apart :
    let first := (Program.ofText "var t = clock();").program
    let second := (Program.ofText "print t < 1700000000000;").program
    let s₁ := ((start (.ticking 1699999999995) 0).run {} first).1
    ((start (.ticking 1699999999995) 0).run {} first).2 = .ok ∧
      (second.resolve s₁.machine.globalNames).reports.size = 0 ∧
      (s₁.run {} second).1.machine.output = #["true"] ∧
      ((start (.ticking 1700000000000) 0).run {}
        ⟨first.body ++ second.body⟩).1.machine.output = #["false"] := by
  decide +kernel

end Session
end Arbor
