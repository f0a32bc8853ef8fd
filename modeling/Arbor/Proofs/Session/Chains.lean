import Arbor.Proofs.Execution.Parameters
import Arbor.Proofs.Execution.Recorded
import Arbor.Proofs.Frames.Chain
import Arbor.Proofs.Session.Keywords
import Arbor.Proofs.Session.Split

/-!
# Chains of frames and classes in a session

A session is given texts, some of which may be rejected.  The machines it meets are those between its
steps, those on which calls of the evaluator are made, and those that such calls leave behind.  On
each of them the chains of frames and of classes end, since what is around a frame and what a class
inherits from was made before; and what has been made is the same on all of them.

The calls that are made hand on all their arguments.

## Main definitions

* `Session.Calls`, `Session.Meets`: the calls of a session, and the machines it meets.
* `Machine.Finds`: the classes that can be reached on a machine.
* `Machine.Chained`, `Machine.Agrees`: chains on one machine, and on two.

## Main statements

* `Session.chains_well_founded`: chains end, never change, and calls hand on their arguments.
-/

namespace Arbor

/-! ### Classes on a machine -/

/-- A value that is in hand, or is held by a frame or a field. -/
def Machine.Bears (m : Machine) (values : List Value) (v : Value) : Prop :=
  v ∈ values ∨ (∃ f name, m.frames.local? f name = some v) ∨
    ∃ (i : Nat) (fields : Bindings Value) (name : String), m.fields[i]? = some fields ∧
      fields.get? name = some v

/-- The classes that can be reached while some values are in hand: values, the classes of instances,
and those above them. -/
inductive Machine.Finds (m : Machine) (values : List Value) : Class → Prop
  | cls {c : Class} (bears : m.Bears values (.cls c)) : Finds m values c
  | object {i : Instance} (bears : m.Bears values (.object i)) : Finds m values i.ofClass
  | superclass {c parent : Class} (below : Finds m values c) (link : c.superclass = some parent) :
      Finds m values parent

/-- Chains on one machine.  Links of frames lead to frames made earlier, and access by name goes from
frame to frame and comes to an end; links of classes lead to classes made earlier, and a lookup finds
the method of the nearest class that declares the name. -/
structure Machine.Chained (m : Machine) (values : List Value) : Prop where
  frame : ∀ f g, m.frames.enclosing? f = some g → g < f ∧ f < m.frames.size
  frames : WellFounded fun g f => m.frames.enclosing? f = some g
  outermost : ∀ f, ∃ depth ≤ f, ∀ d, (m.frames.ancestor? d f).isSome = true ↔ d ≤ depth
  get : ∀ f name, m.frames.get f name =
    match m.frames.local? f name with
    | some v => .ok v
    | none => (m.frames.enclosing? f).elim (.error (.undefinedVariable name)) fun g =>
      m.frames.get g name
  assign : ∀ f name v, m.frames.assign f name v =
    if (m.frames.local? f name).isSome then .ok (m.frames.define f name v)
    else (m.frames.enclosing? f).elim (.error (.undefinedVariable name)) fun g =>
      m.frames.assign g name v
  cls : ∀ c, m.Finds values c →
    c.id < m.made ∧ ∀ parent, c.superclass = some parent → parent.id < c.id
  topmost : ∀ c, m.Finds values c →
    ∃ depth ≤ c.id, ∀ d, (c.ancestor? d).isSome = true ↔ d ≤ depth
  method : ∀ c, m.Finds values c → ∀ name method,
    c.findMethod? name = some method ↔ ∃ d, c.Nearest name d method
  noMethod : ∀ c, m.Finds values c → ∀ name,
    c.findMethod? name = none ↔ ∀ d k, c.ancestor? d = some k → k.methods.get? name = none

/-- Chains on two machines: a frame that is on both has the same frame around it, and a class is known
by its identity, with all that it inherits. -/
structure Machine.Agrees (m : Machine) (values : List Value) (m' : Machine)
    (values' : List Value) : Prop where
  frame : ∀ f, f < m.frames.size → f < m'.frames.size →
    m'.frames.enclosing? f = m.frames.enclosing? f
  cls : ∀ c c', m.Finds values c → m'.Finds values' c' → c.id = c'.id → c = c'

namespace Execution

section Ledger

variable {l : Ledger} {m m' : Machine} {values values' : List Value}

/-- All classes that can be reached are listed.  They are reached by a value that is held somewhere,
by an instance of the class, or by a class that inherits from it. -/
theorem Tallies.finds (tallies : Tallies l m) (known : ∀ v ∈ values, v.Known l) {c : Class}
    (finds : m.Finds values c) : Making.cls c ∈ l := by
  have bears {v : Value} (bears : m.Bears values v) : v.Known l := by
    rcases bears with mem | ⟨f, name, held⟩ | ⟨i, fields, name, at_i, held⟩
    · exact known v mem
    · exact tallies.held f name v held
    · exact tallies.fields i fields name v at_i held
  induction finds with
  | cls there => exact bears there
  | object there => exact bears there
  | superclass _ link ih => exact (tallies.parent _ _ ih link).1

theorem Tallies.ordered (tallies : Tallies l m) : m.frames.Ordered := by
  intro f g link
  exact tallies.earlier f g ((tallies.frame f _).mpr ⟨Frames.lt_size_of_link link, link⟩)

theorem Tallies.orderedClass (tallies : Tallies l m) {c : Class} (listed : Making.cls c ∈ l) :
    c.Ordered :=
  fun _ k parent reached link => (tallies.parent k parent (tallies.ancestor listed reached) link).2

/-- Chains end on a machine that a ledger tallied with.  Whatever a value leads to is listed, and
listed frames and classes are in the order of their making. -/
theorem Knows.chained (knows : Knows l m values) : m.Chained values := by
  obtain ⟨past, -, tallies, known⟩ := knows
  have ordered := tallies.ordered
  refine ⟨?_, ordered.wellFounded, ordered.exists_depth, ?_, ordered.assign_eq, ?_, ?_,
    fun c _ name method => Class.findMethod?_eq_some_iff,
    fun c _ name => Class.findMethod?_eq_none_iff⟩
  · intro f g link
    exact ⟨ordered f g link, Frames.lt_size_of_link link⟩
  · intro f name
    rw [ordered.get_eq]
    cases m.frames.local? f name <;> rfl
  · intro c finds
    have listed := tallies.finds known finds
    exact ⟨tallies.counted c listed, fun parent link => (tallies.parent c parent listed link).2⟩
  · intro c finds
    exact (tallies.orderedClass (tallies.finds known finds)).exists_depth

/-- Two machines of the past agree, since one ledger knows them.  A frame has one link in the
ledger, and a class of an identity is listed once, so that neither can differ between the two. -/
theorem Knows.agrees {last : Machine} (tallies : Tallies l last) (knows : Knows l m values)
    (knows' : Knows l m' values') : m.Agrees values m' values' := by
  obtain ⟨past, part, then_, known⟩ := knows
  obtain ⟨past', part', then', known'⟩ := knows'
  refine ⟨?_, ?_⟩
  · intro f there there'
    have here := (tallies.frame f _).mp (part ((then_.frame f _).mpr ⟨there, rfl⟩))
    have here' := (tallies.frame f _).mp (part' ((then'.frame f _).mpr ⟨there', rfl⟩))
    exact here'.2.symm.trans here.2
  · intro c c' finds finds'
    exact tallies.single c c' (part (then_.finds known finds)) (part' (then'.finds known' finds'))

end Ledger

end Execution

namespace Session

open Execution Stateful

/-! ### Calls and machines of a session -/

/-- The calls of the evaluator in a session.  A text runs if nothing was reported on a text before,
and nothing is on it. -/
inductive Calls (s : Session) (steps : List Step) (limits : Limits) (M : Moment) : Prop
  | intro {before later : List Step} {text : String}
      (split : steps = before ++ (limits, text) :: later)
      (clean : (s.after before).hadError = false) (accepts : (s.after before).Accepts text)
      (occurs : (s.after before).Occurs limits text M)

/-- The machines of a session, with the values in hand. -/
inductive Meets (s : Session) (steps : List Step) : Machine → List Value → Prop
  | between {before later : List Step} (split : steps = before ++ later) :
      Meets s steps (s.after before).machine []
  | called {limits : Limits} {M : Moment} (calls : s.Calls steps limits M) :
      Meets s steps M.machine M.task.values
  | left {limits : Limits} {M : Moment} (calls : s.Calls steps limits M) :
      Meets s steps (M.left limits.turns) []

/-! ### One step -/

section Step

variable {s s' : Session} {limits : Limits} {text : String} {l : Ledger}

theorem Untouched.tallies (untouched : Untouched s s') (tallies : Tallies l s.machine) :
    Tallies l s'.machine :=
  tallies.congr untouched.frames untouched.fields (Nat.le_of_eq untouched.made.symm)

/-- A text that is held back leaves no mark but an error, whether it is held back by an earlier
error or by its own. -/
theorem rejected_runText (rejected : ¬ (s.hadError = false ∧ s.Accepts text)) :
    Untouched s (s.runText limits text).1 ∧ (s.runText limits text).1.hadError = true := by
  have closed : (s.addReports (s.objections (.text limits text))).hadError = true := by
    rw [hadError_addReports_iff (onText_objections s _)]
    by_contra opened
    rw [not_or, Bool.not_eq_true, not_not] at opened
    obtain ⟨clean, none⟩ := opened
    refine rejected ⟨clean, ?_⟩
    unfold objections at none
    dsimp only at none
    split at none
    · next shut =>
      rw [hadError_addReports_empty clean none] at shut
      cases shut
    · have both := Array.append_eq_empty_iff.mp none
      exact ⟨both.1, both.2⟩
  have performed : s.perform (.text limits text) = s.runText limits text := rfl
  have ends := ends_perform s (.text limits text)
  rw [performed] at ends
  obtain ⟨untouched, reports, -⟩ := ends.of_closed closed
  refine ⟨untouched, ?_⟩
  unfold hadError at closed ⊢
  rw [reports]
  exact closed

/-- A step only adds to a ledger, which then knows the machines of all its calls.  A step that is
held back adds nothing and has no calls. -/
theorem exists_ledger_step (tallies : Tallies l s.machine) (limits : Limits) (text : String) :
    ∃ l', l ⊆ l' ∧ Tallies l' (s.runText limits text).1.machine ∧
      (s.hadError = false → s.Accepts text → ∀ M, s.Occurs limits text M →
        Recorded limits.turns l' M) := by
  by_cases runs : s.hadError = false ∧ s.Accepts text
  · obtain ⟨clean, accepts⟩ := runs
    obtain ⟨p, outcome⟩ := exists_resolved s text
    have ready := (untouched_poised s text).tallies tallies
    obtain ⟨l', more, ensures, covers⟩ := records_runAll limits.turns limits.room p.body ready
    refine ⟨l', more, ?_, ?_⟩
    · have interpreted : Tallies l' ((s.poised text).interpret limits p.body).1.machine := by
        unfold interpret
        unfold Ensures at ensures
        split <;> next result => rw [result] at ensures; first | exact ensures.1 | exact ensures
      rw [runText_of_accepts accepts clean, outcome]
      dsimp only
      exact (untouched_ended _ _).tallies interpreted
    · rintro - - M ⟨outcome', split, ran, reaches⟩
      cases outcome.symm.trans outcome'
      exact covers _ ⟨split, ran⟩ M reaches
  · exact ⟨l, Set.Subset.rfl, (rejected_runText runs).1.tallies tallies,
      fun clean accepts => absurd ⟨clean, accepts⟩ runs⟩

end Step

/-! ### Whole sessions -/

section Steps

variable {s : Session} {step : Step} {rest steps : List Step} {limits : Limits} {M : Moment}

/-- A call in a session is one of its first step or one of the session after that.  This is the case
split on which the induction on the steps rests. -/
theorem Calls.first_or_later (calls : s.Calls (step :: rest) limits M) :
    (step.1 = limits ∧ s.hadError = false ∧ s.Accepts step.2 ∧ s.Occurs limits step.2 M) ∨
      (s.next step).Calls rest limits M := by
  obtain @⟨before, later, text, split, clean, accepts, occurs⟩ := calls
  cases before with
  | nil =>
    cases split
    exact .inl ⟨rfl, clean, accepts, occurs⟩
  | cons first before =>
    cases split
    exact .inr ⟨rfl, clean, accepts, occurs⟩

/-- One ledger knows all machines of a session.  The induction is on the steps, each of which adds
to the ledger of those before it. -/
theorem exists_ledger (steps : List Step) : ∀ {s : Session} {l : Ledger}, Tallies l s.machine →
    ∃ l', l ⊆ l' ∧ Tallies l' (s.after steps).machine ∧
      (∀ before later, steps = before ++ later → Knows l' (s.after before).machine []) ∧
      ∀ limits M, s.Calls steps limits M → Recorded limits.turns l' M := by
  induction steps with
  | nil =>
    intro s l tallies
    refine ⟨l, Set.Subset.rfl, tallies, ?_, ?_⟩
    · intro before later split
      obtain ⟨rfl, rfl⟩ := List.append_eq_nil_iff.mp split.symm
      exact ⟨l, Set.Subset.rfl, tallies, List.forall_mem_nil _⟩
    · rintro limits M ⟨split, -, -, -⟩
      simp at split
  | cons step rest ih =>
    intro s l tallies
    obtain ⟨l₁, more₁, tallies₁, recorded₁⟩ := exists_ledger_step tallies step.1 step.2
    rw [← next_eq] at tallies₁
    obtain ⟨l', more, last, between, recorded⟩ := ih tallies₁
    refine ⟨l', more₁.trans more, last, ?_, ?_⟩
    · intro before later split
      cases before with
      | nil => exact ⟨l, more₁.trans more, tallies, List.forall_mem_nil _⟩
      | cons first before =>
        cases split
        exact between before later rfl
    · intro limits M calls
      rcases calls.first_or_later with ⟨rfl, clean, accepts, occurs⟩ | later
      · exact (recorded₁ clean accepts M occurs).mono more
      · exact recorded limits M later

/-- An error stays.  A session that has one refuses whatever follows, and so every later step leaves
it as closed as it was. -/
theorem hadError_after_of_closed {steps : List Step} : ∀ {s : Session}, s.hadError = true →
    (s.after steps).hadError = true := by
  induction steps with
  | nil => exact fun closed => closed
  | cons step rest ih =>
    intro s closed
    refine ih ?_
    rw [next_eq]
    exact (rejected_runText fun both => absurd closed (by rw [both.1]; nofun)).2

/-- If a text runs, those before it were all accepted.  One that was not would have closed the
session to all that follow. -/
theorem acceptsAll_of_clean {text : String} : ∀ {before : List Step} {s : Session},
    (s.after before).hadError = false → (s.after before).Accepts text →
      s.AcceptsAll (before ++ [(limits, text)])
  | [], _, _, accepts => ⟨accepts, trivial⟩
  | step :: before, s, clean, accepts => by
    refine ⟨?_, acceptsAll_of_clean clean accepts⟩
    by_contra refused
    have closed : (s.next step).hadError = true := by
      rw [next_eq]
      exact (rejected_runText fun both => refused both.2).2
    have stays : ((s.next step).after before).hadError = true := hadError_after_of_closed closed
    cases clean.symm.trans stays

/-- A call in a session that starts afresh hands on its arguments. -/
theorem Calls.delivers {clock : Clock} {traceLevel : Nat}
    (calls : (start clock traceLevel).Calls steps limits M) : Delivers limits.turns M := by
  obtain @⟨before, later, text, split, clean, accepts, occurs⟩ := calls
  -- the texts up to this one were all accepted, whatever becomes of the later ones
  have all : (start clock traceLevel).AcceptsAll (before ++ [(limits, text)]) :=
    acceptsAll_of_clean clean accepts
  exact (Occurs.follows all rfl occurs).delivers

/-- Chains of frames and of classes end on every machine a session meets, whatever its texts are and
however their runs end.  What is around a frame and what a class inherits from was made before, and is
the same on all machines.  So access by name goes outward from frame to frame until one holds the
name or none is left, and a lookup finds the method of the nearest class that declares it.  A class
takes as many arguments as the initializer that is then bound to the instance, and every call that is
made binds each parameter to its argument and drops none. -/
theorem chains_well_founded (clock : Clock) (traceLevel : Nat) (steps : List Step) :
    (∀ m values, (start clock traceLevel).Meets steps m values → m.Chained values) ∧
    (∀ m values m' values', (start clock traceLevel).Meets steps m values →
      (start clock traceLevel).Meets steps m' values' → m.Agrees values m' values') ∧
    ∀ limits M, (start clock traceLevel).Calls steps limits M → Delivers limits.turns M := by
  obtain ⟨l, -, last, between, recorded⟩ :=
    exists_ledger steps (s := start clock traceLevel) (.fresh clock traceLevel)
  have knows {m : Machine} {values : List Value}
      (meets : (start clock traceLevel).Meets steps m values) : Knows l m values := by
    cases meets with
    | between split => exact between _ _ split
    | called calls => exact (recorded _ _ calls).made
    | left calls => exact (recorded _ _ calls).left
  refine ⟨?_, ?_, ?_⟩
  · intro m values meets
    exact (knows meets).chained
  · intro m values m' values' meets meets'
    exact Knows.agrees last (knows meets) (knows meets')
  · intro limits M calls
    exact calls.delivers

/-- A class that inherits its initializer, and a call of it. -/
def inheritedInitializer : String :=
  "class A { init(x) { this.x = x; } } class B < A {} B(7);"

/-- The text runs up to its last statement, which calls a class of arity one with an argument. -/
theorem run_inheritedInitializer :
    (match ((start (.ticking 0) 0).resolved inheritedInitializer).outcome with
      | .ok ⟨[first, second, .expr (.call callee paren [argument])]⟩ =>
        match (runAll ({} : Limits).turns 9980 [first, second]).run
          ((start (.ticking 0) 0).poised inheritedInitializer).machine with
        | .ok () m =>
          match (evaluate ({} : Limits).turns 9978 callee Machine.globals).run
            (m.note (.executed (Stmt.expr (.call callee paren [argument])).found)) with
          | .ok (.cls ⟨id, name, some parent, methods⟩) m₁ =>
            match (evaluate ({} : Limits).turns 9978 argument Machine.globals).run m₁ with
            | .ok _ _ => Class.arity ⟨id, name, some parent, methods⟩ == 1
            | _ => false
          | _ => false
        | _ => false
      | _ => false) = true := by
  decide +kernel

/-- The class is made behind the one it inherits from, and its instance is made with the initializer
of that one, which takes the argument. -/
theorem inheritedInitializer_chained :
    ∃ room c parent init argument m, (start (.ticking 0) 0).Calls [({}, inheritedInitializer)] {}
        ⟨room + 1, .invoke (.cls c) [argument], m⟩ ∧
      c.superclass = some parent ∧ parent.id < c.id ∧ c.id < m.made ∧
      c.initializer? = some init ∧ init.decl.params.length = 1 ∧
      ∃ M' bound, Starts ({} : Limits).turns ⟨room + 1, .invoke (.cls c) [argument], m⟩ M' ∧
        M'.task = .invoke (.closure bound) [argument] ∧ bound.decl = init.decl := by
  have shape := run_inheritedInitializer
  split at shape
  · next first second callee paren argument outcome =>
    split at shape
    · next m ran =>
      split at shape
      · next id name parent methods m₁ evaluated =>
        split at shape
        · next v m₂ given =>
          let c : Class := ⟨id, name, some parent, methods⟩
          have one : c.arity = 1 := beq_iff_eq.mp shape
          have all : (allValues (fun e => evaluate ({} : Limits).turns 9978 e Machine.globals)
              [argument]).run m₁ = .ok [v] m₂ := by
            simp only [allValues, run_bind_ok, run_pure_ok]
            exact ⟨v, m₂, given, [], m₂, ⟨rfl, rfl⟩, rfl, rfl⟩
          have fits : (Value.cls c).arity? = some [v].length := congrArg some one
          have path : Reaches ({} : Limits).turns ⟨9980, .execute (.expr (.call callee paren
              [argument])) Machine.globals, m⟩ ⟨9977, .invoke (.cls c) [v],
                m₂.note (.called (.cls c) [v].length paren.line)⟩ :=
            ((Relation.ReflTransGen.single .expression).tail (.called evaluated all)).tail
              (.invoked fits)
          have accepts : (start (.ticking 0) 0).Accepts inheritedInitializer :=
            ⟨Array.size_eq_zero_iff.mp (by decide +kernel),
              Array.size_eq_zero_iff.mp (by decide +kernel)⟩
          have split : [first, second, .expr (.call callee paren [argument])] =
              [first, second] ++ .expr (.call callee paren [argument]) :: [] := rfl
          have calls : (start (.ticking 0) 0).Calls [({}, inheritedInitializer)] {} _ :=
            @Calls.intro _ _ _ _ [] [] _ rfl (hadError_start _ 0) accepts
              (.intro outcome split ran path)
          obtain ⟨chained, -, delivers⟩ := chains_well_founded (.ticking 0) 0 [({}, inheritedInitializer)]
          obtain ⟨counted, above⟩ := (chained _ _ (.called calls)).cls c (.cls (.inl List.mem_cons_self))
          cases found : c.initializer? with
          | none =>
            have none := ((delivers _ _ calls).bare c [v] rfl found).1
            cases one.symm.trans none
          | some init =>
            obtain ⟨same, starts, hands⟩ := (delivers _ _ calls).construct c init [v] rfl found
            obtain ⟨M', starts⟩ := starts (Nat.succ_pos 9976)
            obtain ⟨bound, decl, task⟩ := hands M' starts
            exact ⟨9976, c, parent, init, v, _, calls, rfl, above parent rfl, counted, found,
              same.symm.trans one, M', bound, starts, task, decl⟩
        · cases shape
      · cases shape
    · cases shape
  · cases shape

end Steps

end Session
end Arbor
