import Arbor.Proofs.Execution.Keywords
import Arbor.Proofs.Scope.Derived
import Arbor.Proofs.Session.Moments

/-!
# `this` and `super` in a session

Wherever in a session of accepted texts the evaluator comes to `this`, it finds the instance to which
the method around it was bound when it was fetched, and wherever it comes to `super`, the class that
the superclass of the class around it was when that was declared.  It does not matter how much later
that is, in which frame, or what has become of the names meanwhile.

The argument goes by way of the machine at the end of the session.  What a frame is made with under
the keywords it holds there too, and so does every frame that is there when some call is made; so
whatever is found then is what the frame was made with.

## Main definitions

* `Session.Fetched`, `Session.Inherited`: the bindings of `this` and `super` in a session.
* `Session.ReceiverAt`, `Session.ParentAt`: those that are in force at a place.

## Main statements

* `Session.Occurs.lasts`: keywords last from any call to the end of a session.
* `Session.keywords_denote`: what `this` and `super` stand for, and what calls return.
-/

namespace Arbor

namespace Execution

open Scope

variable {h : History} {frames : Frames Value} {f : FrameId}

theorem Stands.globals_or_made {made : Site → FrameId → Prop} {sites : List Site}
    {scopes : List (Bindings Bool)} (stands : Stands made frames f sites scopes) :
    f = Machine.globals ∨ ∃ site, made site f := by
  cases stands with
  | globals => exact .inl rfl
  | inner _ origin _ _ => exact .inr ⟨_, origin⟩

theorem ExprAt.spelled_this {keyword : Token} {hops : Option Nat}
    (located : ExprAt h frames f (.this keyword hops)) : keyword.lexeme = "this" := by
  obtain ⟨located, yields⟩ := located
  obtain ⟨formed, -⟩ := h.regular located.seen
  cases yields.exprCase with
  | this => exact formed.2.this formed.1

end Execution

namespace Session

open Execution Stateful Scope

/-- A method was fetched in a session and bound to a receiver, in a frame made for that. -/
def Fetched (s : Session) (steps : List Step) (method : Closure) (g : FrameId) (receiver : Value) :
    Prop :=
  ∃ before step later, steps = before ++ step :: later ∧
    ∃ M, (s.after before).Occurs step.1 step.2 M ∧ Fetches step.1.turns M method g receiver

/-- A class was declared in a session whose superclass was a given class, in a frame made for its
methods. -/
def Inherited (s : Session) (steps : List Step) (name : Token) (methods : List FunDecl) (g : FrameId)
    (c : Class) : Prop :=
  ∃ before step later, steps = before ++ step :: later ∧
    ∃ M, (s.after before).Occurs step.1 step.2 M ∧ Inherits step.1.turns M name methods g c

/-- The receiver of a method around a place: at a distance from there stands the scope of the method,
and the frame for it was made when the method was fetched and bound to an instance. -/
def ReceiverAt (s : Session) (steps : List Step) (frames : Frames Value) (f : FrameId)
    (sites : List Site) (d : Nat) (method : Closure) (i : Instance) : Prop :=
  ∃ g, sites[d]? = some (.receiver method.decl) ∧ frames.ancestor? d f = some g ∧
    s.Fetched steps method g (.object i)

/-- The superclass of a class around a place: at a distance from there stands the scope of the class,
and the frame for it was made when the class was declared and inherited from another one. -/
def ParentAt (s : Session) (steps : List Step) (frames : Frames Value) (f : FrameId)
    (sites : List Site) (d : Nat) (name : Token) (methods : List FunDecl) (c : Class) : Prop :=
  ∃ g, sites[d]? = some (.parent name methods) ∧ frames.ancestor? d f = some g ∧
    s.Inherited steps name methods g c

theorem Occurs.reaches {s : Session} {limits : Limits} {text : String} {M M' : Moment}
    (occurs : s.Occurs limits text M) (reaches : Reaches limits.turns M M') :
    s.Occurs limits text M' := by
  obtain ⟨outcome, split, ran, before⟩ := occurs
  exact ⟨outcome, split, ran, before.trans reaches⟩

/-! ### To the end of a session -/

section Lasting

variable {steps before later : List Step} {step : Step} {clock : Clock} {traceLevel : Nat}
variable {p : Program} {M : Moment}

/-- What is run behind a statement of a step.  A statement that completed with a jump would end the
step with a fault, which keeps everything. -/
theorem keeps_afterStatement {turns room : Nat} {earlier rest : List Stmt} {st : Stmt}
    {m₀ m m₁ : Machine} {completion : Completion}
    (ran : (runAll turns room earlier).run m₀ = .ok () m)
    (here : (execute turns room st Machine.globals).run m = .ok completion m₁)
    (others : (runAll turns room (earlier ++ [st])).run m₀ = .ok () m₁ →
      Keeps (runAll turns room rest) m₁) :
    Keeps (match completion.jump? with
      | none => runAll turns room rest
      | some jump => throw (.fault (.escapedToTop jump))) m₁ := by
  cases jumped : completion.jump? with
  | some jump => exact .throw _
  | none =>
    refine others ?_
    rw [run_runAll_append ran]
    refine run_bind_ok.mpr ⟨completion, m₁, here, ?_⟩
    rw [jumped]
    rfl

/-- The statements of a step behind those that have completed.  The induction is on what is left to
run, and each statement keeps what is bound to the keywords. -/
theorem keeps_runAll (accepts : (start clock traceLevel).AcceptsAll steps)
    (split : steps = before ++ step :: later)
    (outcome : (((start clock traceLevel).after before).resolved step.2).outcome = .ok p) :
    ∀ (rest earlier : List Stmt) {m : Machine}, p.body = earlier ++ rest →
      (runAll step.1.turns step.1.room earlier).run
        (((start clock traceLevel).after before).poised step.2).machine = .ok () m →
      Keeps (runAll step.1.turns step.1.room rest) m
  | [], _, _, _, _ => .pure ()
  | st :: rest, earlier, m, splitBody, ran => by
    have follows := Occurs.follows accepts split ⟨outcome, splitBody, ran, .refl⟩
    refine Keeps.bind follows.lasts fun completion m₁ here => keeps_afterStatement ran here ?_
    exact keeps_runAll accepts split outcome rest (earlier ++ [st]) (by simpa using splitBody)

/-- Behind the run of a step only the trace is closed.  So what the keywords stand for is what the
run has left behind. -/
theorem lasts_runText {s : Session} {text : String} (limits : Limits) (accepts : s.Accepts text)
    (clean : s.hadError = false) (outcome : (s.resolved text).outcome = .ok p) :
    Lasts (left (runAll limits.turns limits.room p.body) (s.poised text).machine)
      (s.runText limits text).1.machine := by
  have interpreted : ((s.poised text).interpret limits p.body).1.machine =
      left (runAll limits.turns limits.room p.body) (s.poised text).machine := by
    unfold interpret left
    split <;> next result => rw [result]
  rw [runText_of_accepts accepts clean, outcome, ← interpreted]
  have noted := machine_noteVerdict ((s.poised text).interpret limits p.body).1
    ((s.poised text).interpret limits p.body).2
  exact .of_frames noted.1 (Nat.le_of_eq (congrArg Array.size noted.2).symm)

theorem after_concat (s : Session) (before : List Step) (step : Step) :
    s.after (before ++ [step]) = ((s.after before).runText step.1 step.2).1 := by
  rw [after_append, ← next_eq]
  rfl

/-- Keywords last through a step: resolving changes no frame, running keeps the keywords, and what
is done after that leaves the frames alone. -/
theorem lasts_step (accepts : (start clock traceLevel).AcceptsAll steps)
    (split : steps = before ++ step :: later) :
    Lasts ((start clock traceLevel).after before).machine
      ((start clock traceLevel).after (before ++ [step])).machine := by
  obtain ⟨p, outcome⟩ := exists_resolved ((start clock traceLevel).after before) step.2
  obtain ⟨frames, fields⟩ := frames_poised ((start clock traceLevel).after before) step.2
  have poised := Lasts.of_frames frames (Nat.le_of_eq (congrArg Array.size fields).symm)
  have runs := keeps_runAll accepts split outcome p.body [] rfl rfl
  have clean := hadError_before accepts (hadError_start clock traceLevel) split
  rw [after_concat]
  exact (poised.trans runs).trans (lasts_runText _ (accepts_of_split accepts split) clean outcome)

/-- Keywords last from any step to the end of the session.  The induction is on the steps that are
left. -/
theorem lasts_after (accepts : (start clock traceLevel).AcceptsAll steps) :
    ∀ (before later : List Step), steps = before ++ later →
      Lasts ((start clock traceLevel).after before).machine
        ((start clock traceLevel).after steps).machine
  | before, [], split => by
    rw [split, List.append_nil]
    exact .refl _
  | before, step :: later, split => by
    have others := lasts_after accepts (before ++ [step]) later (by simpa using split)
    exact (lasts_step accepts split).trans others

/-- What a call leaves behind lasts to the end of the session.  Behind it run the rest of its
statement, the other statements of its step, and the steps that follow. -/
theorem Occurs.lasts_left (accepts : (start clock traceLevel).AcceptsAll steps)
    (split : steps = before ++ step :: later)
    (occurs : ((start clock traceLevel).after before).Occurs step.1 step.2 M) :
    Lasts (M.left step.1.turns) ((start clock traceLevel).after steps).machine := by
  obtain @⟨p, earlier, rest, st, m, outcome, splitBody, ran, reaches⟩ := occurs
  have follows := Occurs.follows accepts split ⟨outcome, splitBody, ran, .refl⟩
  have statement := follows.lasts_left reaches
  -- what runs behind the statement: the others of the step, and the steps that follow
  have others : Lasts (Moment.left step.1.turns ⟨step.1.room, .execute st Machine.globals, m⟩)
      (left (runAll step.1.turns step.1.room p.body)
        (((start clock traceLevel).after before).poised step.2).machine) := by
    rw [splitBody, left_congr (run_runAll_append ran)]
    refine lasts_left_bind fun completion m₁ here => keeps_afterStatement ran here ?_
    exact keeps_runAll accepts split outcome rest (earlier ++ [st]) (by simpa using splitBody)
  have clean := hadError_before accepts (hadError_start clock traceLevel) split
  have behind := lasts_runText step.1 (accepts_of_split accepts split) clean outcome
  rw [← after_concat] at behind
  exact ((statement.trans others).trans behind).trans
    (lasts_after accepts (before ++ [step]) later (by simpa using split))

/-- Keywords last from any call to the end of the session. -/
theorem Occurs.lasts (accepts : (start clock traceLevel).AcceptsAll steps)
    (split : steps = before ++ step :: later)
    (occurs : ((start clock traceLevel).after before).Occurs step.1 step.2 M) :
    Lasts M.machine ((start clock traceLevel).after steps).machine :=
  (Occurs.follows accepts split occurs).lasts.trans (occurs.lasts_left accepts split)

end Lasting

/-! ### What frames are made with -/

section Made

variable {steps before later : List Step} {step : Step} {clock : Clock} {traceLevel : Nat}
variable {M : Moment} {f g : FrameId} {sites : List Site} {d : Nat}

theorem Fetched.holds (accepts : (start clock traceLevel).AcceptsAll steps) {method : Closure}
    {receiver : Value} (fetched : (start clock traceLevel).Fetched steps method g receiver) :
    Holds ((start clock traceLevel).after steps).machine.frames g (some receiver) none := by
  obtain ⟨before, step, later, split, M, occurs, fetches⟩ := fetched
  exact (fetches.holds (occurs.follows accepts split)).lasts (occurs.lasts_left accepts split)

theorem Inherited.holds (accepts : (start clock traceLevel).AcceptsAll steps) {name : Token}
    {methods : List FunDecl} {c : Class}
    (inherited : (start clock traceLevel).Inherited steps name methods g c) :
    Holds ((start clock traceLevel).after steps).machine.frames g none (some (.cls c)) := by
  obtain ⟨before, step, later, split, M, occurs, inherits⟩ := inherited
  exact (inherits.holds (occurs.follows accepts split)).lasts (occurs.lasts_left accepts split)

/-- At the end of a session a frame that was made for a method holds `this`, one that was made for
the methods of a class `super`, and any other no keyword. -/
theorem holds_of_made (accepts : (start clock traceLevel).AcceptsAll steps) {site : Site}
    (made : ((start clock traceLevel).history steps accepts).made site g) :
    (∃ method receiver, site = .receiver method.decl ∧
      (start clock traceLevel).Fetched steps method g receiver) ∨
    (∃ name methods c, site = .parent name methods ∧
      (start clock traceLevel).Inherited steps name methods g c) ∨
    Holds ((start clock traceLevel).after steps).machine.frames g none none := by
  obtain ⟨before, step, later, split, M, occurs, makes⟩ := made
  rcases makes.keyword (occurs.follows accepts split) with ⟨method, receiver, same, fetches⟩ |
    ⟨name, methods, c, same, inherits⟩ | holds
  · exact .inl ⟨method, receiver, same, before, step, later, split, M, occurs, fetches⟩
  · exact .inr (.inl ⟨name, methods, c, same, before, step, later, split, M, occurs, inherits⟩)
  · exact .inr (.inr (holds.lasts (occurs.lasts_left accepts split)))

/-- A frame that holds `this` at the end of a session was made to bind a method to what it holds. -/
theorem fetched_of_this (accepts : (start clock traceLevel).AcceptsAll steps) {site : Site}
    {v : Value} (made : ((start clock traceLevel).history steps accepts).made site g)
    (held : ((start clock traceLevel).after steps).machine.frames.local? g "this" = some v) :
    ∃ method, site = .receiver method.decl ∧
      (start clock traceLevel).Fetched steps method g v := by
  rcases holds_of_made accepts made with ⟨method, receiver, same, fetched⟩ |
    ⟨_, _, _, -, inherited⟩ | holds
  · rw [(fetched.holds accepts).this] at held
    cases held
    exact ⟨method, same, fetched⟩
  · rw [(inherited.holds accepts).this] at held
    cases held
  · rw [holds.this] at held
    cases held

/-- A frame that holds `super` at the end of a session was made for a class that inherits from what
it holds. -/
theorem inherited_of_super (accepts : (start clock traceLevel).AcceptsAll steps) {site : Site}
    {v : Value} (made : ((start clock traceLevel).history steps accepts).made site g)
    (held : ((start clock traceLevel).after steps).machine.frames.local? g "super" = some v) :
    ∃ name methods c, site = .parent name methods ∧ v = .cls c ∧
      (start clock traceLevel).Inherited steps name methods g c := by
  rcases holds_of_made accepts made with ⟨_, _, -, fetched⟩ |
    ⟨name, methods, c, same, inherited⟩ | holds
  · rw [(fetched.holds accepts).super] at held
    cases held
  · rw [(inherited.holds accepts).super] at held
    cases held
    exact ⟨name, methods, c, same, rfl, inherited⟩
  · rw [holds.super] at held
    cases held

/-- Where a call finds `this`, a method was bound to what it finds.  Then the frame was made for
that method when it was fetched, and has kept the receiver. -/
theorem Occurs.receiver_found (accepts : (start clock traceLevel).AcceptsAll steps)
    (split : steps = before ++ step :: later)
    (occurs : ((start clock traceLevel).after before).Occurs step.1 step.2 M)
    (finds : Finds ((start clock traceLevel).history steps accepts) M.machine.frames f sites "this"
      d) :
    ∃ method g receiver, sites[d]? = some (.receiver method.decl) ∧
      M.machine.frames.ancestor? d f = some g ∧
      (start clock traceLevel).Fetched steps method g receiver ∧
      M.machine.frames.local? g "this" = some receiver := by
  obtain ⟨g, site, reached, there, made, held⟩ := finds
  obtain ⟨receiver, held'⟩ := Option.isSome_iff_exists.mp held
  have same := (occurs.lasts accepts split).same g (Frames.lt_size_of_local? held) _ not_plain_this
  obtain ⟨method, rfl, fetched⟩ := fetched_of_this accepts made (same.trans held')
  exact ⟨method, g, receiver, there, reached, fetched, held'⟩

/-- Methods are bound to instances.  One that is fetched by `super` is bound to what another one was,
in a frame that was made before. -/
theorem Fetched.exists_object (accepts : (start clock traceLevel).AcceptsAll steps)
    {method : Closure} {receiver : Value}
    (fetched : (start clock traceLevel).Fetched steps method g receiver) :
    ∃ i, receiver = .object i := by
  induction g using Nat.strongRecOn generalizing method receiver with
  | ind g ih =>
    obtain ⟨before, step, later, split, M, occurs, fetches⟩ := fetched
    cases fetches with
    | construction => exact ⟨_, rfl⟩
    | property => exact ⟨_, rfl⟩
    | @super room keyword name f m c hops _ _ parent this found =>
      have located : ExprAt ((start clock traceLevel).history steps accepts) m.frames f
          (.super keyword name (some hops)) := (occurs.follows accepts split).good
      obtain ⟨sites, s, -, -, -, d, same, -, finds⟩ := located.super_found
      obtain ⟨method', k, receiver', -, reached, fetched', held⟩ :=
        occurs.receiver_found accepts split finds
      cases same
      have back : ((d + 1 : Nat) : Int) - 1 = (d : Int) := by omega
      rw [back, getAt_of_held reached held] at this
      cases this
      exact ih k (Frames.lt_size_of_local? (Option.isSome_of_eq_some held)) fetched'

/-- Where a call finds `this`, it finds an instance, the receiver of the method around.  Methods are
bound to instances only, so it is no other value. -/
theorem Occurs.getAt_this (accepts : (start clock traceLevel).AcceptsAll steps)
    (split : steps = before ++ step :: later)
    (occurs : ((start clock traceLevel).after before).Occurs step.1 step.2 M)
    (finds : Finds ((start clock traceLevel).history steps accepts) M.machine.frames f sites "this"
      d) :
    ∃ method i, (start clock traceLevel).ReceiverAt steps M.machine.frames f sites d method i ∧
      M.machine.frames.getAt f (d : Int) "this" = .ok (.object i) := by
  obtain ⟨method, g, receiver, there, reached, fetched, held⟩ :=
    occurs.receiver_found accepts split finds
  obtain ⟨i, rfl⟩ := fetched.exists_object accepts
  exact ⟨method, i, ⟨g, there, reached, fetched⟩, getAt_of_held reached held⟩

/-- Where a call finds `super`, it finds the superclass of the class around.  That is the class to
which the name of the superclass was evaluated when the class was declared. -/
theorem Occurs.getAt_super (accepts : (start clock traceLevel).AcceptsAll steps)
    (split : steps = before ++ step :: later)
    (occurs : ((start clock traceLevel).after before).Occurs step.1 step.2 M)
    (finds : Finds ((start clock traceLevel).history steps accepts) M.machine.frames f sites "super"
      d) :
    ∃ name methods c,
      (start clock traceLevel).ParentAt steps M.machine.frames f sites d name methods c ∧
      M.machine.frames.getAt f (d : Int) "super" = .ok (.cls c) := by
  obtain ⟨g, site, reached, there, made, held⟩ := finds
  obtain ⟨v, held'⟩ := Option.isSome_iff_exists.mp held
  have same := (occurs.lasts accepts split).same g (Frames.lt_size_of_local? held) _ not_plain_super
  obtain ⟨name, methods, c, rfl, rfl, inherited⟩ :=
    inherited_of_super accepts made (same.trans held')
  exact ⟨name, methods, c, ⟨g, there, reached, inherited⟩, getAt_of_held reached held'⟩

end Made

/-! ### What keywords stand for -/

section Denote

variable {steps before later : List Step} {step : Step} {clock : Clock} {traceLevel : Nat}
variable {room : Nat} {f : FrameId} {m m' : Machine}

/-- Keywords are not bound among the globals.  They are not in the beginning, and no step of the
session binds them there. -/
theorem holds_globals (accepts : (start clock traceLevel).AcceptsAll steps) :
    Holds ((start clock traceLevel).after steps).machine.frames Machine.globals none none := by
  have first : Holds (start clock traceLevel).machine.frames Machine.globals none none := by
    refine ⟨?_, Frames.local?_made_of_ne .empty none ?_ _, Frames.local?_made_of_ne .empty none ?_ _⟩
    · change 0 < Frames.size (Frames.define _ _ _ _)
      simp
    · decide
    · decide
  exact first.lasts (lasts_after accepts [] steps rfl)

/-- `this` stands for the receiver of the method around it.  Its distance leads to a frame that was
made for a receiver, and whatever was bound there by the fetching lasts. -/
theorem Occurs.this_denotes (accepts : (start clock traceLevel).AcceptsAll steps)
    (split : steps = before ++ step :: later) {keyword : Token} {hops : Option Nat}
    (occurs : ((start clock traceLevel).after before).Occurs step.1 step.2
      ⟨room + 1, .evaluate (.this keyword hops) f, m⟩) :
    ∃ sites s d method i, Traced ((start clock traceLevel).history steps accepts) m.frames f
        (.this keyword hops) sites s ∧ hops = some d ∧ distance? s.scopes "this" = some d ∧
      (start clock traceLevel).ReceiverAt steps m.frames f sites d method i ∧
      (evaluate step.1.turns (room + 1) (.this keyword hops) f).run m = .ok (.object i) m := by
  have located : ExprAt ((start clock traceLevel).history steps accepts) m.frames f
    (.this keyword hops) := (occurs.follows accepts split).good
  have spelled := located.spelled_this
  obtain ⟨sites, s, traced, distance, d, rfl, finds⟩ := located.this_found
  rw [spelled] at distance finds
  obtain ⟨method, i, receiver, got⟩ := occurs.getAt_this accepts split finds
  refine ⟨sites, s, d, method, i, traced, rfl, distance.symm, receiver, ?_⟩
  change (Eval.getAt f (d : Int) keyword.lexeme).run m = _
  rw [spelled]
  exact run_getAt_of_ok got

/-- The visits of a session keep to the scopes of the classes they come to. -/
theorem enclosed_of_seen (accepts : (start clock traceLevel).AcceptsAll steps) {v : Visit}
    (seen : ((start clock traceLevel).history steps accepts).seen v) : v.Enclosed := by
  obtain ⟨before, step, later, split, visits⟩ := seen
  obtain ⟨p, outcome⟩ := exists_resolved ((start clock traceLevel).after before) step.2
  obtain ⟨s', yields⟩ := (accepts_of_split accepts split).yields outcome
  exact visits.enclosed (formed_ofText step.2) yields

/-- Where `super` was resolved there are the scopes of a class with a superclass.  Elsewhere it
would have been reported, and the step would not have been accepted. -/
theorem derived_of_traced (accepts : (start clock traceLevel).AcceptsAll steps)
    {frames : Frames Value} {keyword name : Token} {hops : Option Nat} {sites : List Site} {s : State}
    (traced : Traced ((start clock traceLevel).history steps accepts) frames f
      (.super keyword name hops) sites s) : Derived sites s.scopes := by
  obtain ⟨context, source, s', seen, yields⟩ := traced.visit
  have enclosed := enclosed_of_seen accepts seen
  cases yields.exprCase with
  | super fine =>
    rcases enclosed (inClass_of_superError? fine) with ⟨_, _, _, other⟩ | derived
    · cases other
    · exact derived

/-- `super` looks its method up from the superclass of the class around it, and binds it to what
`this` stands for in the same place. -/
theorem Occurs.super_denotes (accepts : (start clock traceLevel).AcceptsAll steps)
    (split : steps = before ++ step :: later) {keyword name : Token} {hops : Option Nat}
    (occurs : ((start clock traceLevel).after before).Occurs step.1 step.2
      ⟨room + 1, .evaluate (.super keyword name hops) f, m⟩) :
    ∃ sites s d method i className methods c,
      Traced ((start clock traceLevel).history steps accepts) m.frames f
        (.super keyword name hops) sites s ∧ hops = some (d + 1) ∧
      distance? s.scopes "super" = some (d + 1) ∧ distance? s.scopes "this" = some d ∧
      (start clock traceLevel).ReceiverAt steps m.frames f sites d method i ∧
      (start clock traceLevel).ParentAt steps m.frames f sites (d + 1) className methods c ∧
      method.decl ∈ methods ∧
      (evaluate step.1.turns (room + 1) (.super keyword name hops) f).run m =
        match c.findMethod? name.lexeme with
        | some found => .ok (.closure (bound found m)) (boundTo found (.object i) m)
        | none => .error (.error ⟨.undefinedProperty name.lexeme, name.line⟩) m := by
  have located : ExprAt ((start clock traceLevel).history steps accepts) m.frames f
    (.super keyword name hops) := (occurs.follows accepts split).good
  obtain ⟨sites, s, traced, distance, spelled, d, rfl, parentFound, thisFound⟩ := located.super_found
  rw [spelled] at distance
  obtain ⟨method, i, receiver, gotThis⟩ := occurs.getAt_this accepts split thisFound
  obtain ⟨className, methods, c, parent, gotSuper⟩ := occurs.getAt_super accepts split parentFound
  -- both belong to the class around the place
  obtain ⟨d', decl, _, _, thisDistance, superDistance, there, outside, mem⟩ :=
    (derived_of_traced accepts traced).distances
  cases distance.trans superDistance
  have mem : method.decl ∈ methods := by
    obtain ⟨_, thereToo, -⟩ := receiver
    obtain ⟨_, outsideToo, -⟩ := parent
    rw [there] at thereToo
    rw [outside] at outsideToo
    cases thereToo
    cases outsideToo
    exact mem
  have back : ((d + 1 : Nat) : Int) - 1 = (d : Int) := by omega
  rw [← back] at gotThis
  exact ⟨sites, s, d, method, i, className, methods, c, traced, rfl, superDistance, thisDistance,
    receiver, parent, mem, run_superMethod gotSuper gotThis⟩

/-- A call of an initializer that returns returns the instance the initializer is bound to.  It is
read from the frame of the initializer at the end, where it was bound before the call. -/
theorem Occurs.initializer_returns (accepts : (start clock traceLevel).AcceptsAll steps)
    (split : steps = before ++ step :: later) {M : Moment} {c : Closure} {v : Value}
    (occurs : ((start clock traceLevel).after before).Occurs step.1 step.2 M)
    (returns : Returns step.1.turns M (.closure c) v m') (initializer : c.isInitializer = true) :
    ∃ method i, (start clock traceLevel).Fetched steps method c.frame (.object i) ∧
      v = .object i := by
  obtain ⟨room, arguments, m, reaches, ran, -⟩ := returns.invoked
  have occurs := occurs.reaches reaches
  have held := local?_of_initializer initializer ran
  have left : Moment.left step.1.turns ⟨room, .invoke (.closure c) arguments, m⟩ = m' :=
    left_of_ok ran
  have lasts := occurs.lasts_left accepts split
  rw [left] at lasts
  have size := Frames.lt_size_of_local? (Option.isSome_of_eq_some held)
  rw [← lasts.same c.frame size _ not_plain_this] at held
  have fits : ClosureFits _ m.frames c := (occurs.follows accepts split).good.1.1
  obtain ⟨⟨_, _, _, _, _, _, -, -, stands⟩, -⟩ := fits
  rcases stands.globals_or_made with globals | ⟨site, made⟩
  · rw [globals, (holds_globals accepts).this] at held
    cases held
  · obtain ⟨method, -, fetched⟩ := fetched_of_this accepts made held
    obtain ⟨i, rfl⟩ := fetched.exists_object accepts
    exact ⟨method, i, fetched, rfl⟩

/-- A call of a class that returns returns a new instance of the class.  The instance was not there
when the call was made, and its fields are there now. -/
theorem Occurs.class_returns (accepts : (start clock traceLevel).AcceptsAll steps)
    (split : steps = before ++ step :: later) {M : Moment} {c : Class} {v : Value}
    (occurs : ((start clock traceLevel).after before).Occurs step.1 step.2 M)
    (returns : Returns step.1.turns M (.cls c) v m') :
    ∃ i, v = .object i ∧ i.ofClass = c ∧ M.machine.fields[i.id]? = none ∧
      (m'.fields[i.id]?).isSome = true := by
  obtain ⟨room, arguments, m, reaches, ran, fields⟩ := returns.invoked
  obtain ⟨rfl, new⟩ := new_of_class ((occurs.reaches reaches).follows accepts split) ran
  refine ⟨_, rfl, rfl, ?_, ?_⟩
  · rw [← fields]
    exact Array.getElem?_eq_none (Nat.le_refl _)
  · rw [Array.getElem?_eq_getElem new]
    rfl

/-- `this` and `super` stand for the right things for ever.  A method that is fetched is bound to an
instance, and a class that inherits is declared with a class, and neither is ever bound to another
one.  Wherever in a session of accepted texts the evaluator comes to `this`, it finds the instance to
which the method around it was bound when that was fetched.  Wherever it comes to `super`, it looks
the method up from the class that the superclass around it was when the class was declared, and binds
it to what `this` stands for there; only the method can be missing.  A call of an initializer that
returns returns the instance the initializer is bound to, and a call of a class that returns a new
instance of just that class. -/
theorem keywords_denote (accepts : (start clock traceLevel).AcceptsAll steps)
    (split : steps = before ++ step :: later) :
    (∀ method g receiver, (start clock traceLevel).Fetched steps method g receiver →
      (∃ i, receiver = .object i) ∧
      (∀ M, ((start clock traceLevel).after before).Occurs step.1 step.2 M →
        g < M.machine.frames.size → M.machine.frames.local? g "this" = some receiver) ∧
      ((start clock traceLevel).after steps).machine.frames.local? g "this" = some receiver) ∧
    (∀ name methods g c, (start clock traceLevel).Inherited steps name methods g c →
      (∀ M, ((start clock traceLevel).after before).Occurs step.1 step.2 M →
        g < M.machine.frames.size → M.machine.frames.local? g "super" = some (.cls c)) ∧
      ((start clock traceLevel).after steps).machine.frames.local? g "super" = some (.cls c)) ∧
    (∀ room keyword hops f m, ((start clock traceLevel).after before).Occurs step.1 step.2
        ⟨room + 1, .evaluate (.this keyword hops) f, m⟩ →
      ∃ sites s d method i, Traced ((start clock traceLevel).history steps accepts) m.frames f
          (.this keyword hops) sites s ∧ hops = some d ∧ distance? s.scopes "this" = some d ∧
        (start clock traceLevel).ReceiverAt steps m.frames f sites d method i ∧
        (evaluate step.1.turns (room + 1) (.this keyword hops) f).run m = .ok (.object i) m) ∧
    (∀ room keyword name hops f m, ((start clock traceLevel).after before).Occurs step.1 step.2
        ⟨room + 1, .evaluate (.super keyword name hops) f, m⟩ →
      ∃ sites s d method i className methods c,
        Traced ((start clock traceLevel).history steps accepts) m.frames f
          (.super keyword name hops) sites s ∧ hops = some (d + 1) ∧
        distance? s.scopes "super" = some (d + 1) ∧ distance? s.scopes "this" = some d ∧
        (start clock traceLevel).ReceiverAt steps m.frames f sites d method i ∧
        (start clock traceLevel).ParentAt steps m.frames f sites (d + 1) className methods c ∧
        method.decl ∈ methods ∧
        (evaluate step.1.turns (room + 1) (.super keyword name hops) f).run m =
          match c.findMethod? name.lexeme with
          | some found => .ok (.closure (bound found m)) (boundTo found (.object i) m)
          | none => .error (.error ⟨.undefinedProperty name.lexeme, name.line⟩) m) ∧
    (∀ M c v m', ((start clock traceLevel).after before).Occurs step.1 step.2 M →
      Returns step.1.turns M (.closure c) v m' → c.isInitializer = true →
      ∃ method i, (start clock traceLevel).Fetched steps method c.frame (.object i) ∧
        v = .object i) ∧
    (∀ M c v m', ((start clock traceLevel).after before).Occurs step.1 step.2 M →
      Returns step.1.turns M (.cls c) v m' →
      ∃ i, v = .object i ∧ i.ofClass = c ∧ M.machine.fields[i.id]? = none ∧
        (m'.fields[i.id]?).isSome = true) := by
  refine ⟨fun method g receiver fetched => ?_, fun name methods g c inherited => ?_, ?_, ?_, ?_, ?_⟩
  · have holds := fetched.holds accepts
    refine ⟨fetched.exists_object accepts, fun M occurs there => ?_, holds.this⟩
    rw [← (occurs.lasts accepts split).same g there _ not_plain_this]
    exact holds.this
  · have holds := inherited.holds accepts
    refine ⟨fun M occurs there => ?_, holds.super⟩
    rw [← (occurs.lasts accepts split).same g there _ not_plain_super]
    exact holds.super
  · exact fun room keyword hops f m occurs => occurs.this_denotes accepts split
  · exact fun room keyword name hops f m occurs => occurs.super_denotes accepts split
  · exact fun M c v m' occurs returns => occurs.initializer_returns accepts split returns
  · exact fun M c v m' occurs returns => occurs.class_returns accepts split returns

end Denote

/-- The one statement of an initializer is executed when a text ends with a call of its class.  The
rooms are those of the default limits, less one for each call on the way. -/
theorem occurs_in_initializer {s : Session} {text : String} {earlier : List Stmt} {callee : Expr}
    {paren name : Token} {st : Stmt} {m m₁ : Machine} {c : Class} {id : Nat} {g : FrameId}
    {isInitializer : Bool}
    (outcome : (s.resolved text).outcome = .ok ⟨earlier ++ [.expr (.call callee paren [])]⟩)
    (ran : (runAll ({} : Limits).turns 9980 earlier).run (s.poised text).machine = .ok () m)
    (called : (evaluate ({} : Limits).turns 9978 callee Machine.globals).run
      (m.note (.executed (Stmt.expr (.call callee paren [])).found)) = .ok (.cls c) m₁)
    (found : c.initializer? = some ⟨id, ⟨name, [], [st]⟩, g, isInitializer⟩) :
    ∃ f m, s.Occurs {} text ⟨9974, .execute st f, m⟩ := by
  have calls : s.Occurs {} text
      ⟨9980, .execute (.expr (.call callee paren [])) Machine.globals, m⟩ :=
    .intro outcome rfl ran .refl
  have arity : (Value.cls c).arity? = some ([] : List Value).length := by
    change some c.arity = some 0
    rw [Class.arity, found]
    rfl
  have invokes := ((calls.starts .expression).starts (.called called rfl)).starts (.invoked arity)
  have runs := (invokes.starts (.initializer rfl found rfl)).starts (.body rfl rfl)
  exact ⟨_, _, runs.starts (@Starts.statement _ 9974 [] st [] _ _ _ rfl)⟩

/-- A class whose superclass has lost its name when the initializer calls that one by `super`. -/
def renouncedParent : String :=
  "class A { init() {} } class B < A { init() { super.init(); } } A = nil; B();"

/-- The text runs up to its last statement, which calls a class whose initializer calls `super`. -/
theorem initializer_calls_super :
    (match ((start (.ticking 0) 0).resolved renouncedParent).outcome with
      | .ok ⟨[parent, child, renounced, .expr (.call callee paren [])]⟩ =>
        match (runAll ({} : Limits).turns 9980 [parent, child, renounced]).run
          ((start (.ticking 0) 0).poised renouncedParent).machine with
        | .ok () m =>
          match (evaluate ({} : Limits).turns 9978 callee Machine.globals).run
            (m.note (.executed (Stmt.expr (.call callee paren [])).found)) with
          | .ok (.cls c) _ =>
            match c.initializer? with
            | some ⟨_, ⟨_, [], [.expr (.call (.super _ _ _) _ [])]⟩, _, _⟩ => true
            | _ => false
          | _ => false
        | _ => false
      | _ => false) = true := by
  decide +kernel

/-- `super` in the initializer of that class, whose superclass is still the class it was, although
the name of that class stands for nothing of the kind by then. -/
theorem renounced_parent_denoted :
    (start (.ticking 0) 0).AcceptsAll [({}, renouncedParent)] ∧
    ∃ room keyword name d f m sites method i className methods c,
      (start (.ticking 0) 0).Occurs {} renouncedParent
        ⟨room + 1, .evaluate (.super keyword name (some (d + 1))) f, m⟩ ∧
      (start (.ticking 0) 0).ReceiverAt [({}, renouncedParent)] m.frames f sites d method i ∧
      (start (.ticking 0) 0).ParentAt [({}, renouncedParent)] m.frames f sites (d + 1) className methods c ∧
      (evaluate ({} : Limits).turns (room + 1) (.super keyword name (some (d + 1))) f).run m =
        match c.findMethod? name.lexeme with
        | some found => .ok (.closure (bound found m)) (boundTo found (.object i) m)
        | none => .error (.error ⟨.undefinedProperty name.lexeme, name.line⟩) m := by
  have accepts : (start (.ticking 0) 0).AcceptsAll [({}, renouncedParent)] := by
    refine ⟨⟨?_, ?_⟩, trivial⟩ <;> exact Array.size_eq_zero_iff.mp (by decide +kernel)
  refine ⟨accepts, ?_⟩
  have shape := initializer_calls_super
  split at shape
  · next parent child renounced callee paren outcome =>
    split at shape
    · next m ran =>
      split at shape
      · next c _ called =>
        split at shape
        · next found =>
          obtain ⟨f, m, runs⟩ := occurs_in_initializer outcome ran called found
          have occurs := (runs.starts .expression).starts .callee
          obtain ⟨-, -, -, super, -⟩ := keywords_denote accepts (List.nil_append _).symm
          obtain ⟨sites, -, d, method, i, className, methods, c, -, rfl, -, -, receiver, parent, -,
            result⟩ := super _ _ _ _ _ _ occurs
          exact ⟨_, _, _, d, f, _, sites, method, i, className, methods, c, occurs, receiver, parent,
            result⟩
        · cases shape
      · cases shape
    · cases shape
  · cases shape

end Session
end Arbor
