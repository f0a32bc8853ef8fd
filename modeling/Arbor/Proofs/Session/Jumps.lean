import Arbor.Proofs.Execution.Taken
import Arbor.Proofs.Session.Moments

/-!
# Jumps in a session

The resolver reports each `break` and `continue` outside of a loop and each return outside of
a function.  In a session in which nothing is reported every jump is therefore taken: a `break` or
`continue` by the innermost loop around it in the same function body, a return by the call of the
function around it.  None arrives at the top level, and only returns leave the body of a function.

## Main statements

* `Session.jumps_taken`: all jumps of a session are taken.
-/

namespace Arbor
namespace Session

open Execution Stateful Scope

variable {steps before later : List Step} {step : Step} {clock : Clock} {traceLevel : Nat}

/-- A statement at the top level completes without a jump.  It is in no loop and in no function, and
the resolver has refused the jumps that nothing takes. -/
theorem jump?_top (accepts : (start clock traceLevel).AcceptsAll steps)
    (split : steps = before ++ step :: later) {p : Program}
    (outcome : (((start clock traceLevel).after before).resolved step.2).outcome = .ok p)
    {earlier rest : List Stmt} {st : Stmt} (splitBody : p.body = earlier ++ st :: rest)
    {m m' : Machine} {completion : Completion}
    (ran : (execute step.1.turns step.1.room st Machine.globals).run m = .ok completion m') :
    completion.jump? = none := by
  obtain ⟨s', yields⟩ := (accepts_of_split accepts split).yields outcome
  exact jump?_eq_none yields splitBody ran

/-- Every jump that occurs is taken by a call that occurs.  It either reaches the top level, which
the resolver has excluded, or is taken on the way. -/
theorem Occurs.taken (accepts : (start clock traceLevel).AcceptsAll steps)
    (split : steps = before ++ step :: later) {M : Moment}
    (occurs : ((start clock traceLevel).after before).Occurs step.1 step.2 M) {m' : Machine}
    {completion : Completion} {jump : Jump} (completes : M.Completes step.1.turns completion m')
    (jumps : completion.jump? = some jump) :
    ∃ taker, ((start clock traceLevel).after before).Occurs step.1 step.2 taker ∧
      Taken step.1.turns M m' completion taker := by
  obtain @⟨p, earlier, rest, st, m, outcome, splitBody, ran, reaches⟩ := occurs
  have top : ((start clock traceLevel).after before).Occurs step.1 step.2
      ⟨step.1.room, .execute st Machine.globals, m⟩ := ⟨outcome, splitBody, ran, .refl⟩
  rcases (top.follows accepts split).taken reaches completes jumps with arrives | found
  · have normal := jump?_top accepts split outcome splitBody arrives
    rw [normal] at jumps
    cases jumps
  · obtain ⟨taker, reached, taken⟩ := found
    exact ⟨taker, ⟨outcome, splitBody, ran, reached⟩, taken⟩

/-- No jump escapes in a session of accepted texts.  Statements at the top level complete without
one, bodies of functions without a `break` or `continue`.  A jump that leaves any statement, wherever
it occurs, is handed outward on the same machine and taken by the innermost loop around it in the
same body, or by the call of the function around it.  So no step ends in the fault of a jump that
escaped. -/
theorem jumps_taken (accepts : (start clock traceLevel).AcceptsAll steps)
    (split : steps = before ++ step :: later) :
    (∀ {p : Program} {earlier rest : List Stmt} {st : Stmt} {m m' : Machine}
      {completion : Completion},
      (((start clock traceLevel).after before).resolved step.2).outcome = .ok p →
      p.body = earlier ++ st :: rest →
      (execute step.1.turns step.1.room st Machine.globals).run m = .ok completion m' →
      completion.jump? = none) ∧
    (∀ {room : Nat} {c : Closure} {arguments : List Value} {f : FrameId} {m m₁ m₂ m' : Machine}
      {completion : Completion},
      ((start clock traceLevel).after before).Occurs step.1 step.2
        ⟨room + 1, .invoke (.closure c) arguments, m⟩ →
      (Eval.newFrame c.frame).run m = .ok f m₁ →
      (Eval.bindParams f c.decl.params arguments).run m₁ = .ok () m₂ →
      (runBlock step.1.turns room c.decl.body f).run m₂ = .ok completion m' →
      completion ≠ .broke ∧ completion ≠ .continued) ∧
    (∀ {M : Moment} {m' : Machine} {completion : Completion} {jump : Jump},
      ((start clock traceLevel).after before).Occurs step.1 step.2 M →
      M.Completes step.1.turns completion m' → completion.jump? = some jump →
      ∃ taker, ((start clock traceLevel).after before).Occurs step.1 step.2 taker ∧
        Taken step.1.turns M m' completion taker) ∧
    ∀ jump, (((start clock traceLevel).after before).runText step.1 step.2).2
        ≠ .fault (.escapedToTop jump) ∧
      ∀ name, (((start clock traceLevel).after before).runText step.1 step.2).2
        ≠ .fault (.escapedFunction jump name) := by
  refine ⟨fun outcome splitBody ran => jump?_top accepts split outcome splitBody ran, ?_,
    fun occurs completes jumps => occurs.taken accepts split completes jumps, fun jump => ⟨?_, ?_⟩⟩
  · intro room c arguments f m m₁ m₂ m' completion occurs made bound ran
    have follows := occurs.follows accepts split
    constructor
    · rintro rfl
      cases follows.body_taken made bound ran rfl
    · rintro rfl
      cases follows.body_taken made bound ran rfl
  · intro ends
    rcases fault_runText accepts split ends with same | ⟨_, same⟩ <;> cases same
  · intro name ends
    rcases fault_runText accepts split ends with same | ⟨_, same⟩ <;> cases same

theorem resolved_break_in_loop :
    (match ((start (.ticking 0) 0).resolved "while (true) break;").outcome with
      | .ok ⟨[.loop (.literal (.bool true)) (.brk _)]⟩ => true
      | _ => false) = true := by
  decide +kernel

/-- The `break` of a loop occurs and is taken.  It is executed in the first turn, as the condition
is true. -/
theorem break_in_loop_taken :
    (start (.ticking 0) 0).AcceptsAll [({}, "while (true) break;")] ∧
      ∃ (room : Nat) (keyword : Token) (f : FrameId) (m m' : Machine) (taker : Moment),
        (start (.ticking 0) 0).Occurs {} "while (true) break;" ⟨room, .execute (.brk keyword) f, m⟩ ∧
        Taken ({} : Limits).turns ⟨room, .execute (.brk keyword) f, m⟩ m' .broke taker := by
  have accepts : (start (.ticking 0) 0).AcceptsAll [({}, "while (true) break;")] := by
    refine ⟨⟨?_, ?_⟩, trivial⟩ <;> exact Array.size_eq_zero_iff.mp (by decide +kernel)
  have shape := resolved_break_in_loop
  split at shape
  · next keyword outcome =>
    have top : (start (.ticking 0) 0).Occurs {} "while (true) break;" ⟨9980,
        .execute (.loop (.literal (.bool true)) (.brk keyword)) Machine.globals,
        ((start (.ticking 0) 0).poised "while (true) break;").machine⟩ :=
      .intro outcome (List.nil_append _).symm rfl .refl
    have occurs := (top.starts .loop).starts (.turn (by decide) (.none _) rfl rfl)
    obtain ⟨-, -, taken, -⟩ := jumps_taken accepts (List.nil_append _).symm
    obtain ⟨taker, -, taken⟩ := taken occurs rfl rfl
    exact ⟨accepts, _, keyword, _, _, _, taker, occurs, taken⟩
  · cases shape

end Session
end Arbor
