import Arbor.Proofs.Execution.Lockstep

/-!
# Who takes a jump

A jump is handed outward from call to call: from a statement to the block or the branch it stands
in, and, if it is a return, from the body of a loop to the loop.  It arrives, on the machine on which
it was made, at the loop or the call that takes it.  A `break` ends the loop, a `continue` goes on
with its next turn, and a return ends the call.

Since a jump is not handed on from the body of a loop unless it is a return, nor from the body of
a function at all, the loop that takes it is the innermost one around it in the same body, and the
call that takes it is one of the function it stands in.

## Main definitions

* `Moment.Completes`: how calls that run statements complete.
* `Passes`: a jump is handed on from call to call.
* `Taken`: a jump that was made in one call and is taken by another.

## Main statements

* `Follows.handsOn`: one step outward.
* `Follows.taken`: every jump is taken, or arrives at the outermost call.
-/

namespace Arbor
namespace Execution

open Eval Stateful Scope

/-- A call that runs statements completes. -/
def Moment.Completes (turns : Nat) (M : Moment) (completion : Completion) (m : Machine) : Prop :=
  match M.task with
  | .execute s f => (execute turns M.room s f).run M.machine = .ok completion m
  | .runBlock ss f => (runBlock turns M.room ss f).run M.machine = .ok completion m
  | .runLoop condition body f =>
    (runLoop turns M.room condition body f).run M.machine = .ok completion m
  | _ => False

/-- Whether a call hands on the jumps of a call it makes. -/
def Task.passes (jump : Jump) : Task → Task → Bool
  | .execute _ _, .execute _ _ | .execute _ _, .runBlock _ _ | .runBlock _ _, .execute _ _ => true
  | .execute _ _, .runLoop _ _ _ | .runLoop _ _ _, .execute _ _ => jump == .ret
  | _, _ => false

/-- A jump that leaves the second call is handed on by all calls out to the first one. -/
abbrev Passes (turns : Nat) (jump : Jump) : Moment → Moment → Prop :=
  Relation.ReflTransGen fun M M' => Starts turns M M' ∧ M.task.passes jump M'.task = true

/-- A call completes with a jump, which is handed on and taken by another call. -/
inductive Taken (turns : Nat) (M : Moment) (m' : Machine) : Completion → Moment → Prop
  /-- A `break` ends the loop. -/
  | broke {room : Nat} {condition : Expr} {body : Stmt} {f : FrameId} {m m₁ : Machine}
      (turn : Starts turns ⟨room + 1, .runLoop condition body f, m⟩ ⟨room, .execute body f, m₁⟩)
      (passes : Passes turns .brk ⟨room, .execute body f, m₁⟩ M)
      (arrives : (execute turns room body f).run m₁ = .ok .broke m')
      (ends : (runLoop turns (room + 1) condition body f).run m = .ok .normal m') :
      Taken turns M m' .broke ⟨room + 1, .runLoop condition body f, m⟩
  /-- A `continue` makes the loop go on behind the turn. -/
  | continued {room n : Nat} {condition : Expr} {body : Stmt} {f : FrameId} {m m₁ : Machine}
      (turn : Starts turns ⟨room + 1, .runLoop condition body f, m⟩ ⟨room, .execute body f, m₁⟩)
      (passes : Passes turns .cont ⟨room, .execute body f, m₁⟩ M)
      (arrives : (execute turns room body f).run m₁ = .ok .continued m')
      (rounds : Rounds turns room condition body f (n + 1) m m')
      (goesOn : (runLoop turns (room + 1) condition body f).run m =
        (repeatWhile (evaluate turns room condition f) (execute turns room body f)
          (turns - (n + 1))).run m') :
      Taken turns M m' .continued ⟨room + 1, .runLoop condition body f, m⟩
  /-- A return ends the call of the function. -/
  | returned {room : Nat} {c : Closure} {arguments : List Value} {f : FrameId} {m m₁ : Machine}
      {v : Value}
      (body : Starts turns ⟨room + 1, .invoke (.closure c) arguments, m⟩
        ⟨room, .runBlock c.decl.body f, m₁⟩)
      (passes : Passes turns .ret ⟨room, .runBlock c.decl.body f, m₁⟩ M)
      (arrives : (runBlock turns room c.decl.body f).run m₁ = .ok (.returned v) m')
      (ends : (invoke turns (room + 1) (.closure c) arguments).run m =
        (outcomeOf c (.returned v)).run m') :
      Taken turns M m' (.returned v) ⟨room + 1, .invoke (.closure c) arguments, m⟩

/-- What a call inside does is taken by whoever takes what it hands on to.  The way outward is
longer by one call, and the taker is the same. -/
theorem Taken.inside {turns : Nat} {M M' taker : Moment} {m : Machine} {completion : Completion}
    {jump : Jump} (taken : Taken turns M m completion taker) (starts : Starts turns M M')
    (jumps : completion.jump? = some jump) (passes : M.task.passes jump M'.task = true) :
    Taken turns M' m completion taker := by
  cases taken with
  | broke turn outward arrives ends =>
    cases jumps
    exact .broke turn (outward.tail ⟨starts, passes⟩) arrives ends
  | continued turn outward arrives rounds goesOn =>
    cases jumps
    exact .continued turn (outward.tail ⟨starts, passes⟩) arrives rounds goesOn
  | returned body outward arrives ends =>
    cases jumps
    exact .returned body (outward.tail ⟨starts, passes⟩) arrives ends

/-! ### One step outward -/

section Step

variable {turns room : Nat} {f : FrameId} {m m₁ m₂ m' : Machine} {completion : Completion}
variable {jump : Jump}

/-- A jump ends the statements it stands among. -/
theorem run_inOrder_jump {run : Stmt → Eval Completion} {before after : List Stmt} {s : Stmt}
    (ran : (inOrder run before).run m = .ok .normal m₁) (ranHere : (run s).run m₁ = .ok completion m')
    (jumps : completion.jump? = some jump) :
    (inOrder run (before ++ s :: after)).run m = .ok completion m' := by
  refine run_inOrder_append ran (run_bind_ok.mpr ⟨completion, m', ranHere, ?_⟩)
  cases completion with
  | normal => cases jumps
  | _ => rfl

/-- After some turns a loop does what is left of it.  A turn that is over has ended normally or with
`continue`, and in either case the loop goes on alike. -/
theorem Rounds.run_repeatWhile {condition : Expr} {body : Stmt} {n : Nat}
    (rounds : Rounds turns room condition body f n m m') :
    ∀ left, (repeatWhile (evaluate turns room condition f) (execute turns room body f)
        (left + n)).run m =
      (repeatWhile (evaluate turns room condition f) (execute turns room body f) left).run m' := by
  induction rounds with
  | none => exact fun left => rfl
  | @more n m m₁ m₂ m₃ v completion before tested truthy ran stays ih =>
    intro left
    have shift : left + (n + 1) = (left + 1) + n := by omega
    rw [shift, ih, repeatWhile, EStateM.run_bind, tested]
    dsimp only
    rw [if_pos truthy, EStateM.run_bind, ran]
    rcases stays with rfl | rfl <;> rfl

/-- What a turn of a loop leaves to the loop, given how the body completes.  The turns before it
have been made, and the loop goes on from it with one turn less than were left. -/
theorem run_runLoop_turn {condition : Expr} {body : Stmt} {n : Nat} {v : Value} (more : n < turns)
    (rounds : Rounds turns room condition body f n m m₁)
    (tested : (evaluate turns room condition f).run m₁ = .ok v m₂) (truthy : v.isTruthy = true) :
    (runLoop turns (room + 1) condition body f).run m =
      ((execute turns room body f) >>= fun completion => match completion with
        | .broke => pure .normal
        | .returned value => pure (.returned value)
        | .normal | .continued => repeatWhile (evaluate turns room condition f)
            (execute turns room body f) (turns - (n + 1))).run m₂ := by
  -- `n` turns are over, this is the next one, and the others are left
  have split : turns = (turns - (n + 1) + 1) + n := by omega
  have behind := rounds.run_repeatWhile (turns - (n + 1) + 1)
  rw [← split] at behind
  rw [runLoop, behind, repeatWhile, EStateM.run_bind, tested]
  dsimp only
  exact congrArg (EStateM.run · m₂) (if_pos truthy)

/-- A loop completes with no jump but a return. -/
theorem ret_of_runLoop {condition : Expr} {body : Stmt}
    (ran : (runLoop turns room condition body f).run m = .ok completion m')
    (jumps : completion.jump? = some jump) : jump = .ret := by
  cases room with
  | zero => cases ran
  | succ room =>
    have anything : Releases (fun _ => True) (execute turns room body f) :=
      fun _ _ _ _ _ _ => trivial
    exact (anything.repeatWhile turns m completion m' jump ran jumps).1

/-- A loop takes the jumps of its body, apart from returns.  After `break` it is over, and after
`continue` the rest of the loop is the loop after one more turn. -/
theorem handsOn_turn {condition : Expr} {body : Stmt} {n : Nat} {v : Value} (more : n < turns)
    (rounds : Rounds turns room condition body f n m m₁)
    (tested : (evaluate turns room condition f).run m₁ = .ok v m₂) (truthy : v.isTruthy = true)
    (ran : (execute turns room body f).run m₂ = .ok completion m')
    (jumps : completion.jump? = some jump) :
    ((runLoop turns (room + 1) condition body f).run m = .ok completion m' ∧ jump = .ret) ∨
      Taken turns ⟨room, .execute body f, m₂⟩ m' completion
        ⟨room + 1, .runLoop condition body f, m⟩ := by
  have whole := run_runLoop_turn more rounds tested truthy
  rw [EStateM.run_bind, ran] at whole
  have turn : Starts turns ⟨room + 1, .runLoop condition body f, m⟩ ⟨room, .execute body f, m₂⟩ :=
    .turn more rounds tested truthy
  cases completion with
  | normal => cases jumps
  | returned v =>
    cases jumps
    exact .inl ⟨whole, rfl⟩
  | broke => exact .inr (.broke turn .refl ran whole)
  | continued =>
    exact .inr (.continued turn .refl ran (.more rounds tested truthy ran (.inr rfl)) whole)

/-- A call of a function takes the returns of its body, and nothing else leaves it, since the
resolver lets no other jump out of the body of a function. -/
theorem Follows.body_taken {h : History} {c : Closure} {arguments : List Value}
    (follows : Follows h turns ⟨room + 1, .invoke (.closure c) arguments, m⟩)
    (made : (newFrame c.frame).run m = .ok f m₁)
    (bound : (bindParams f c.decl.params arguments).run m₁ = .ok () m₂)
    (ran : (runBlock turns room c.decl.body f).run m₂ = .ok completion m')
    (jumps : completion.jump? = some jump) :
    Taken turns ⟨room, .runBlock c.decl.body f, m₂⟩ m' completion
      ⟨room + 1, .invoke (.closure c) arguments, m⟩ := by
  obtain ⟨⟨⟨⟨_, _, _, _, _, _, _, yields, _⟩, _⟩, -⟩, -⟩ := follows.good
  have returns : jump = .ret := by
    refine Decidable.byContradiction fun other => ?_
    have lets := lets_of_runBlock ran jumps
    rw [lets_body_eq_false yields other] at lets
    cases lets
  have whole : (invoke turns (room + 1) (.closure c) arguments).run m =
      (outcomeOf c completion).run m' := by
    rw [invoke, EStateM.run_bind, made]
    dsimp only
    rw [EStateM.run_bind, bound]
    dsimp only
    rw [EStateM.run_bind, ran]
  cases completion with
  | returned v => exact .returned (.body made bound) .refl ran whole
  | _ =>
    rw [returns] at jumps
    cases jumps

/-- A jump that leaves a call is handed on by the call that made it, or taken there.  Calls that
evaluate something never complete with a jump, so only those of statements are left. -/
theorem Follows.handsOn {h : History} {M M' : Moment} (follows : Follows h turns M)
    (starts : Starts turns M M') (completes : M'.Completes turns completion m')
    (jumps : completion.jump? = some jump) :
    (M.Completes turns completion m' ∧ M.task.passes jump M'.task = true) ∨
      Taken turns M' m' completion M := by
  cases starts with
  | body made bound => exact .inr (follows.body_taken made bound completes jumps)
  | statement ran => exact .inl ⟨run_inOrder_jump ran completes jumps, rfl⟩
  | turn more rounds tested truthy =>
    rcases handsOn_turn more rounds tested truthy completes jumps with ⟨whole, rfl⟩ | taken
    · exact .inl ⟨whole, rfl⟩
    · exact .inr taken
  | block made =>
    refine .inl ⟨?_, rfl⟩
    exact run_bind_ok.mpr ⟨(), _, rfl, run_bind_ok.mpr ⟨_, _, made, completes⟩⟩
  | thenBranch tested truthy =>
    refine .inl ⟨run_bind_ok.mpr ⟨(), _, rfl, run_bind_ok.mpr ⟨_, _, tested, ?_⟩⟩, rfl⟩
    rw [if_pos truthy]
    exact completes
  | elseBranch tested falsy =>
    refine .inl ⟨run_bind_ok.mpr ⟨(), _, rfl, run_bind_ok.mpr ⟨_, _, tested, ?_⟩⟩, rfl⟩
    rw [if_neg (Bool.eq_false_iff.mp falsy)]
    exact completes
  | loop =>
    -- what leaves a loop was not taken by it
    have returns := ret_of_runLoop completes jumps
    subst returns
    exact .inl ⟨run_bind_ok.mpr ⟨(), _, rfl, completes⟩, rfl⟩
  | _ => exact completes.elim

end Step

/-- Every jump is taken, or it arrives at the outermost call.  On its way it is handed on unchanged,
and on the same machine. -/
theorem Follows.taken {h : History} {turns : Nat} {top M : Moment} {completion : Completion}
    {jump : Jump} {m' : Machine} (follows : Follows h turns top) (reaches : Reaches turns top M)
    (completes : M.Completes turns completion m') (jumps : completion.jump? = some jump) :
    top.Completes turns completion m' ∨
      ∃ taker, Reaches turns top taker ∧ Taken turns M m' completion taker := by
  -- the induction goes outward: the last call made is the first that can take the jump
  induction reaches with
  | refl => exact .inl completes
  | @tail M M' before starts ih =>
    rcases (follows.reaches before).handsOn starts completes jumps with ⟨outer, passes⟩ | taken
    · rcases ih outer with arrives | ⟨taker, reached, taken⟩
      · exact .inl arrives
      · exact .inr ⟨taker, reached, taken.inside starts jumps passes⟩
    · exact .inr ⟨M, before, taken⟩

end Execution
end Arbor
