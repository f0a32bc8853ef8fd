import Arbor.Execution
import Arbor.Proofs.Scope.Yields

/-!
# Jumps and the statements they can leave

Whether a `break`, `continue` or `return` can leave a statement is visible in the statement itself:
one stands in it with no loop (for the first two) and no function around it.  Two facts meet here.
A statement completes with a jump only if the jump can leave it, whatever the machine; and a
statement that was resolved without a report lets a jump out only where its context takes it.

## Main definitions

* `Stmt.lets`: whether a jump can leave a statement.
* `Context.takes`: whether a place is surrounded by something that takes a jump.

## Main statements

* `lets_of_execute`, `lets_of_runBlock`: what completes with a jump lets it out.
* `takes_of_stmt`, `takes_of_stmts`: what was resolved lets out only what its context takes.
-/

namespace Arbor

mutual

/-- Whether a jump can leave a statement. -/
def Stmt.lets (jump : Jump) : Stmt → Bool
  | .brk _ => decide (jump = .brk)
  | .cont _ => decide (jump = .cont)
  | .ret _ _ => decide (jump = .ret)
  | .block statements => Stmt.anyLets jump statements
  | .ifElse _ thenBranch none => thenBranch.lets jump
  | .ifElse _ thenBranch (some elseBranch) => thenBranch.lets jump || elseBranch.lets jump
  | .loop _ body => decide (jump = .ret) && body.lets jump
  | _ => false

/-- Whether a jump can leave one of some statements. -/
def Stmt.anyLets (jump : Jump) : List Stmt → Bool
  | [] => false
  | s :: rest => s.lets jump || Stmt.anyLets jump rest

end

theorem Stmt.anyLets_eq_any (jump : Jump) (statements : List Stmt) :
    Stmt.anyLets jump statements = statements.any (Stmt.lets jump) := by
  induction statements with
  | nil => rfl
  | cons s rest ih => rw [Stmt.anyLets, List.any_cons, ih]

/-- A block lets out what a statement of it lets out. -/
theorem Stmt.anyLets_of_mem {jump : Jump} {statements : List Stmt} {s : Stmt}
    (mem : s ∈ statements) (lets : s.lets jump = true) : Stmt.anyLets jump statements = true := by
  rw [Stmt.anyLets_eq_any]
  exact List.any_eq_true.mpr ⟨s, mem, lets⟩

namespace Scope

/-- Whether a place is surrounded by something that takes a jump. -/
def Context.takes (context : Context) : Jump → Bool
  | .ret => context.function.isSome
  | .brk | .cont => context.inLoop

/-! ### What resolution lets through -/

mutual

/-- A resolved statement lets out only what its context takes.  The induction follows the statement:
the resolver reported no jump in it, so there is a loop or a function around each of them, and a
loop takes away those that it handles itself. -/
theorem takes_of_stmt {jump : Jump} : ∀ (st : Stmt) {context : Context} {st' : Stmt} {s s' : State},
    Yields (stmt context st) s st' s' → st'.lets jump = true → context.takes jump = true
  | .block statements, _, _, _, _, yields, lets => by
    cases yields.stmtCase with
    | block part => exact takes_of_stmts statements part (by simpa [Stmt.lets] using lets)
  | .ifElse condition thenBranch none, _, _, _, _, yields, lets => by
    cases yields.stmtCase with
    | ifThen first second => exact takes_of_stmt thenBranch second (by simpa [Stmt.lets] using lets)
  | .ifElse condition thenBranch (some elseBranch), _, _, _, _, yields, lets => by
    cases yields.stmtCase with
    | ifElse first second third =>
      rw [Stmt.lets, Bool.or_eq_true] at lets
      rcases lets with lets | lets
      · exact takes_of_stmt thenBranch second lets
      · exact takes_of_stmt elseBranch third lets
  | .loop condition body, _, _, _, _, yields, lets => by
    cases yields.stmtCase with
    | loop first second =>
      rw [Stmt.lets, Bool.and_eq_true, decide_eq_true_eq] at lets
      obtain ⟨rfl, lets⟩ := lets
      -- a loop changes nothing for a return: the context differs in `inLoop` only
      have taken := takes_of_stmt body second lets
      exact taken
  | .ret keyword value, _, _, _, _, yields, lets => by
    cases yields.stmtCase with
    | ret inside plain part =>
      rw [Stmt.lets, decide_eq_true_eq] at lets
      subst lets
      rw [Context.takes, ← Option.not_isNone, inside]
      rfl
  | .brk keyword, _, _, _, _, yields, lets => by
    cases yields.stmtCase with
    | brk inside =>
      rw [Stmt.lets, decide_eq_true_eq] at lets
      subst lets
      exact inside
  | .cont keyword, _, _, _, _, yields, lets => by
    cases yields.stmtCase with
    | cont inside =>
      rw [Stmt.lets, decide_eq_true_eq] at lets
      subst lets
      exact inside
  | .expr e, _, _, _, _, yields, lets
  | .print e, _, _, _, _, yields, lets
  | .bare e, _, _, _, _, yields, lets
  | .varDecl name e, _, _, _, _, yields, lets
  | .funDecl decl, _, _, _, _, yields, lets
  | .classDecl name parent members, _, _, _, _, yields, lets
  | .misfit what, _, _, _, _, yields, lets => by
    cases yields.stmtCase <;> simp [Stmt.lets] at lets
termination_by structural st => st

/-- Resolved statements in order let out only what their context takes, since each of them does.
Each is silent, because reports are never taken back. -/
theorem takes_of_stmts {jump : Jump} : ∀ (sts : List Stmt) {context : Context} {sts' : List Stmt}
    {s s' : State}, Yields (stmts context sts) s sts' s' → Stmt.anyLets jump sts' = true →
      context.takes jump = true
  | [], _, _, _, _, ⟨ran, _⟩, lets => by
    cases ran
    cases lets
  | st :: rest, context, _, _, _, ⟨ran, silent⟩, lets => by
    simp only [stmts, Stateful.run_bind_ok, Stateful.run_pure_ok] at ran
    obtain ⟨_, _, ranFirst, _, _, ranRest, rfl, rfl⟩ := ran
    rw [Stmt.anyLets, Bool.or_eq_true] at lets
    rcases lets with lets | lets
    · have quiet := (stmts_effect context rest ranRest).2.silent silent
      exact takes_of_stmt st ⟨ranFirst, quiet⟩ lets
    · exact takes_of_stmts rest ⟨ranRest, silent⟩ lets
termination_by structural sts => sts

end

/-- Neither `break` nor `continue` can leave the body of a resolved function.  The body begins
outside of every loop, even if the function is declared inside of one. -/
theorem lets_body_eq_false {context : Context} {kind : FunctionKind} {source decl : FunDecl}
    {s s' : State} (yields : Yields (function context kind source) s decl s') {jump : Jump}
    (other : jump ≠ .ret) : Stmt.anyLets jump decl.body = false := by
  obtain ⟨name, params, body⟩ := source
  obtain ⟨_, body', _, rfl, -, part⟩ := function_yields yields
  rw [Bool.eq_false_iff]
  intro lets
  have taken := takes_of_stmts body part lets
  cases jump with
  | ret => exact other rfl
  | brk => cases taken
  | cont => cases taken

end Scope

/-! ### What completes with a jump -/

namespace Execution

open Eval Stateful

/-- Every jump that leaves `x` satisfies `allowed`. -/
def Releases (allowed : Jump → Prop) (x : Eval Completion) : Prop :=
  ∀ m completion m' jump, x.run m = .ok completion m' → completion.jump? = some jump → allowed jump

namespace Releases

variable {α : Type} {allowed : Jump → Prop}

theorem bind {x : Eval α} {k : α → Eval Completion} (rest : ∀ a, Releases allowed (k a)) :
    Releases allowed (x >>= k) := by
  intro m completion m' jump ran jumps
  obtain ⟨a, m₁, -, ran⟩ := run_bind_ok.mp ran
  exact rest a m₁ completion m' jump ran jumps

theorem pure {completion : Completion} (each : ∀ jump, completion.jump? = some jump → allowed jump) :
    Releases allowed (Pure.pure completion) := by
  intro m completion m' jump ran jumps
  cases ran
  exact each jump jumps

theorem normal : Releases allowed (Pure.pure .normal) :=
  .pure fun _ none => by cases none

theorem throw (abort : Abort) : Releases allowed (MonadExcept.throw abort) :=
  fun _ _ _ _ ran _ => absurd ran run_throw_ok

theorem mono {x : Eval Completion} {more : Jump → Prop} (releases : Releases allowed x)
    (weaker : ∀ jump, allowed jump → more jump) : Releases more x :=
  fun m completion m' jump ran jumps => weaker jump (releases m completion m' jump ran jumps)

/-- Statements in order let out what any of them does. -/
theorem inOrder {run : Stmt → Eval Completion} : ∀ {statements : List Stmt},
    (∀ s ∈ statements, Releases allowed (run s)) → Releases allowed (inOrder run statements)
  | [], _ => .normal
  | s :: rest, each => by
    intro m completion m' jump ran jumps
    obtain ⟨first, m₁, ranFirst, ran⟩ := run_bind_ok.mp ran
    have here := each s List.mem_cons_self m first m₁ jump ranFirst
    -- what follows is run only behind a statement that completed without a jump
    cases first with
    | normal =>
      have later := inOrder fun s mem => each s (List.mem_cons_of_mem _ mem)
      exact later m₁ completion m' jump ran jumps
    | _ =>
      cases ran
      exact here jumps

/-- A loop hands on nothing but returns.  A turn that ends in `break` or `continue` is taken by the
loop itself, so the only jump that is left over is a return of the body. -/
theorem repeatWhile {condition : Eval Value} {body : Eval Completion}
    (inner : Releases allowed body) : ∀ turns : Nat,
    Releases (fun jump => jump = .ret ∧ allowed jump) (repeatWhile condition body turns)
  | 0 => .throw _
  | turns + 1 => by
    refine .bind fun value => ?_
    split
    · intro m completion m' jump ran jumps
      obtain ⟨first, m₁, ranFirst, ran⟩ := run_bind_ok.mp ran
      cases first with
      | normal | continued => exact repeatWhile inner turns m₁ completion m' jump ran jumps
      | broke =>
        cases ran
        cases jumps
      | returned v =>
        cases ran
        have allows := inner m _ _ jump ranFirst jumps
        cases jumps
        exact ⟨rfl, allows⟩
    · exact .normal

end Releases

/-- What the three functions that complete let out with a given room. -/
structure Releasing (turns room : Nat) : Prop where
  runBlock : ∀ ss f, Releases (fun jump => Stmt.anyLets jump ss = true) (runBlock turns room ss f)
  runLoop : ∀ e s f, Releases (fun jump => (Stmt.loop e s).lets jump = true)
    (runLoop turns room e s f)
  execute : ∀ s f, Releases (fun jump => s.lets jump = true) (execute turns room s f)

namespace Releasing

variable {turns room : Nat}

/-- One level of execution, by the form of the statement: the jumps that come out of a statement are
those that it lets out by its form. -/
theorem execute_succ (releasing : Releasing turns room) (s : Stmt) (f : FrameId) :
    Releases (fun jump => s.lets jump = true) (Execution.execute turns (room + 1) s f) := by
  refine .bind fun _ => ?_
  cases s with
  | expr e => exact .bind fun _ => .normal
  | print e => exact .bind fun _ => .bind fun _ => .normal
  | varDecl name initializer =>
    cases initializer with
    | none => exact .bind fun _ => .bind fun _ => .normal
    | some e => exact .bind fun _ => .bind fun _ => .bind fun _ => .normal
  | block statements =>
    refine .bind fun inner => (releasing.runBlock statements inner).mono fun jump lets => ?_
    simpa [Stmt.lets] using lets
  | ifElse condition thenBranch elseBranch =>
    refine .bind fun value => ?_
    cases elseBranch with
    | none =>
      dsimp only
      split
      · exact (releasing.execute thenBranch f).mono fun _ lets => by simpa [Stmt.lets] using lets
      · exact .normal
    | some elseBranch =>
      dsimp only
      split
      · exact (releasing.execute thenBranch f).mono fun _ lets => by simp [Stmt.lets, lets]
      · exact (releasing.execute elseBranch f).mono fun _ lets => by simp [Stmt.lets, lets]
  | loop condition body => exact releasing.runLoop condition body f
  | funDecl decl => exact .bind fun _ => .bind fun _ => .bind fun _ => .normal
  | classDecl name superclass methods => exact .bind fun _ => .normal
  | ret keyword e =>
    have returns value : Releases (fun jump => (Stmt.ret keyword e).lets jump = true)
        (pure (.returned value)) := by
      refine .pure fun jump jumps => ?_
      cases jumps
      rfl
    cases e with
    | none => exact returns .nil
    | some e => exact .bind fun value => returns value
  | brk keyword =>
    refine .pure fun jump jumps => ?_
    cases jumps
    rfl
  | cont keyword =>
    refine .pure fun jump jumps => ?_
    cases jumps
    rfl
  | bare e => exact .throw _
  | misfit what => exact .throw _

theorem succ (releasing : Releasing turns room) : Releasing turns (room + 1) where
  runBlock ss f := .inOrder fun s mem => (releasing.execute s f).mono fun _ lets =>
    Stmt.anyLets_of_mem mem lets
  runLoop e s f := by
    refine (Releases.repeatWhile (releasing.execute s f) turns).mono fun jump allows => ?_
    obtain ⟨rfl, lets⟩ := allows
    simpa [Stmt.lets] using lets
  execute := releasing.execute_succ

theorem all (turns : Nat) : ∀ room, Releasing turns room
  | 0 => ⟨fun _ _ => .throw _, fun _ _ _ => .throw _, fun _ _ => .throw _⟩
  | room + 1 => (all turns room).succ

end Releasing

variable {turns room : Nat} {f : FrameId} {m m' : Machine} {completion : Completion} {jump : Jump}

/-- A statement completes with a jump only if the jump can leave it. -/
theorem lets_of_execute {s : Stmt} (ran : (execute turns room s f).run m = .ok completion m')
    (jumps : completion.jump? = some jump) : s.lets jump = true :=
  (Releasing.all turns room).execute s f m completion m' jump ran jumps

theorem lets_of_runBlock {ss : List Stmt}
    (ran : (runBlock turns room ss f).run m = .ok completion m')
    (jumps : completion.jump? = some jump) : Stmt.anyLets jump ss = true :=
  (Releasing.all turns room).runBlock ss f m completion m' jump ran jumps

end Execution
end Arbor
