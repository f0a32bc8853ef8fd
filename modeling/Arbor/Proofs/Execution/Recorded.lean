import Arbor.Proofs.Execution.Ledger

/-!
# Runs that are recorded

Every function of the evaluator only adds to a ledger, and the ledger it ends with knows the machines
of all calls that are made on the way.  The calls that a call makes are those `Starts` has a rule
for, so in each case the calls behind the parts of a computation are matched with these rules.

Nothing is assumed of the trees: they need not be resolved, and need not be well-formed.

## Main definitions

* `Recording`: what every function of the evaluator does to a ledger.

## Main statements

* `Recording.all`: the whole evaluator keeps to it, with any room.
* `records_runAll`: so do the statements of a program.
-/

namespace Arbor
namespace Execution

open Eval Stateful

variable {turns room : Nat} {l : Ledger} {m : Machine} {f : FrameId}

/-- What every function of the evaluator does to a ledger in frames that are there, with values that
are known, when it has a given room. -/
structure Recording (turns room : Nat) : Prop where
  evaluate : ∀ {l m f}, Tallies l m → l.There f → ∀ e,
    Records turns l (evaluate turns room e f) m (· = ⟨room, .evaluate e f, m⟩) Value.Known
  call : ∀ {l m callee arguments}, Tallies l m → callee.Known l → (∀ v ∈ arguments, v.Known l) →
    ∀ paren, Records turns l (call turns room callee arguments paren) m
      (· = ⟨room, .call callee arguments paren, m⟩) Value.Known
  invoke : ∀ {l m callee arguments}, Tallies l m → callee.Known l →
    (∀ v ∈ arguments, v.Known l) →
    Records turns l (invoke turns room callee arguments) m
      (· = ⟨room, .invoke callee arguments, m⟩) Value.Known
  runBlock : ∀ {l m f}, Tallies l m → l.There f → ∀ ss,
    Records turns l (runBlock turns room ss f) m (· = ⟨room, .runBlock ss f, m⟩) Completion.Known
  runLoop : ∀ {l m f}, Tallies l m → l.There f → ∀ condition body,
    Records turns l (runLoop turns room condition body f) m
      (· = ⟨room, .runLoop condition body f, m⟩) Completion.Known
  declareClass : ∀ {l m f}, Tallies l m → l.There f → ∀ name superclass methods,
    Records turns l (declareClass turns room name superclass methods f) m
      (· = ⟨room, .declareClass name superclass methods f, m⟩) fun _ _ => True
  execute : ∀ {l m f}, Tallies l m → l.There f → ∀ s,
    Records turns l (execute turns room s f) m (· = ⟨room, .execute s f, m⟩) Completion.Known

/-! ### Sequences, loops and calls -/

/-- The arguments of a call are evaluated each behind those before it. -/
inductive ArgumentCalls (turns room : Nat) (es : List Expr) (f : FrameId) (m : Machine) :
    Moment → Prop
  | intro {before e after vs m'} (split : es = before ++ e :: after)
      (ran : (allValues (fun e => evaluate turns room e f) before).run m = .ok vs m') :
      ArgumentCalls turns room es f m ⟨room, .evaluate e f, m'⟩

/-- The statements of a block are executed each behind those before it. -/
inductive StatementCalls (turns room : Nat) (ss : List Stmt) (f : FrameId) (m : Machine) :
    Moment → Prop
  | intro {before s after m'} (split : ss = before ++ s :: after)
      (ran : (inOrder (fun s => execute turns room s f) before).run m = .ok .normal m') :
      StatementCalls turns room ss f m ⟨room, .execute s f, m'⟩

/-- A loop evaluates its condition behind any turns it has made, and then may execute its body. -/
inductive LoopCalls (turns room : Nat) (condition : Expr) (body : Stmt) (f : FrameId) (allowed : Nat)
    (m : Machine) : Moment → Prop
  | condition {n m'} (less : n < allowed) (rounds : Rounds turns room condition body f n m m') :
      LoopCalls turns room condition body f allowed m ⟨room, .evaluate condition f, m'⟩
  | turn {n m₁ v m₂} (less : n < allowed) (rounds : Rounds turns room condition body f n m m₁)
      (tested : (evaluate turns room condition f).run m₁ = .ok v m₂) (truthy : v.isTruthy = true) :
      LoopCalls turns room condition body f allowed m ⟨room, .execute body f, m₂⟩

/-- The first of some turns of a loop.  Turns are counted from the first to the last, so this goes
back through all of them. -/
theorem Rounds.first {condition : Expr} {body : Stmt} {n : Nat} {m' : Machine}
    (rounds : Rounds turns room condition body f (n + 1) m m') :
    ∃ v m₁ completion m₂, (evaluate turns room condition f).run m = .ok v m₁ ∧
      v.isTruthy = true ∧ (execute turns room body f).run m₁ = .ok completion m₂ ∧
      (completion = .normal ∨ completion = .continued) ∧
      Rounds turns room condition body f n m₂ m' := by
  induction n generalizing m' with
  | zero =>
    cases rounds with
    | more before tested truthy ran stays =>
      cases before
      exact ⟨_, _, _, _, tested, truthy, ran, stays, .none _⟩
  | succ n ih =>
    cases rounds with
    | more before tested' truthy' ran' stays' =>
      obtain ⟨v, m₁, completion, m₂, tested, truthy, ran, stays, rest⟩ := ih before
      exact ⟨v, m₁, completion, m₂, tested, truthy, ran, stays,
        .more rest tested' truthy' ran' stays'⟩

namespace Recording

/-- Arguments are evaluated one by one, each on the machine that those before it left.  The ledger
is carried along, and the calls are those behind a split of the list. -/
theorem allValues (recording : Recording turns room) : ∀ {l : Ledger} {m : Machine}
    (es : List Expr), Tallies l m → l.There f →
      Records turns l (Execution.allValues (fun e => Execution.evaluate turns room e f) es) m
        (ArgumentCalls turns room es f m) fun l vs => ∀ v ∈ vs, v.Known l
  | _, _, [], tallies, _ => by
    refine (Records.pure tallies fun v mem => absurd mem List.not_mem_nil).fewer ?_
    rintro M ⟨split, -⟩
    simp at split
  | l, m, e :: rest, tallies, there => by
    refine ((recording.evaluate tallies there e).bind
      (fun _ m₁ => ArgumentCalls turns room rest f m₁) ?_).fewer ?_
    · intro v m₁ l₁ _ more tallies₁ known
      refine (recording.allValues rest tallies₁ (there.mono more)).andThen ?_
      intro vs m₂ l₂ _ more₂ tallies₂ each
      exact .pure tallies₂ (List.forall_mem_cons.mpr ⟨known.mono more₂, each⟩)
    · rintro _ @⟨before, e', after, vs, m', split, ran⟩
      cases before with
      | nil =>
        cases split
        cases ran
        exact .inl rfl
      | cons first before =>
        cases split
        obtain ⟨v, m₁, ranFirst, others⟩ := run_bind_ok.mp ran
        obtain ⟨vs', m₂, ranRest, same⟩ := run_bind_ok.mp others
        cases same
        exact .inr ⟨v, m₁, ranFirst, rfl, ranRest⟩

/-- Statements run one by one, up to the first that makes a jump; those behind it are not called.
The calls of the list are that of the first statement, and if it completed normally those of the
rest. -/
theorem inOrder (recording : Recording turns room) : ∀ {l : Ledger} {m : Machine}
    (ss : List Stmt), Tallies l m → l.There f →
      Records turns l (Execution.inOrder (fun s => Execution.execute turns room s f) ss) m
        (StatementCalls turns room ss f m) Completion.Known
  | _, _, [], tallies, _ => by
    refine (Records.pure tallies trivial).fewer ?_
    rintro M ⟨split, -⟩
    simp at split
  | l, m, s :: rest, tallies, there => by
    refine ((recording.execute tallies there s).bind
      (fun completion m₁ M => completion = .normal ∧ StatementCalls turns room rest f m₁ M)
      ?_).fewer ?_
    · intro completion m₁ l₁ _ more tallies₁ known
      cases completion with
      | normal =>
        refine (recording.inOrder rest tallies₁ (there.mono more)).fewer ?_
        exact fun M made => made.2
      | _ => exact (Records.pure tallies₁ known).fewer fun M made => by cases made.1
    · rintro _ @⟨before, s', after, m', split, ran⟩
      cases before with
      | nil =>
        cases split
        cases ran
        exact .inl rfl
      | cons first before =>
        cases split
        obtain ⟨completion, m₁, ranFirst, others⟩ := run_bind_ok.mp ran
        cases completion with
        | normal => exact .inr ⟨_, m₁, ranFirst, rfl, rfl, others⟩
        | _ => cases others

/-- A loop calls its condition and its body in turn.  The induction is on the turns it may still
take, and a turn later in the loop is one behind the first. -/
theorem repeatWhile (recording : Recording turns room) (condition : Expr) (body : Stmt) :
    ∀ {l : Ledger} {m : Machine} (allowed : Nat), Tallies l m → l.There f →
      Records turns l (Execution.repeatWhile (Execution.evaluate turns room condition f)
        (Execution.execute turns room body f) allowed) m
        (LoopCalls turns room condition body f allowed m) Completion.Known
  | _, _, 0, tallies, _ => by
    refine (Records.throw tallies _).fewer ?_
    rintro M (⟨less, -⟩ | ⟨less, -, -, -⟩) <;> exact absurd less (Nat.not_lt_zero _)
  | l, m, allowed + 1, tallies, there => by
    refine ((recording.evaluate tallies there condition).bind
      (fun v m₁ M => v.isTruthy = true ∧ (M = ⟨room, .execute body f, m₁⟩ ∨
        ∃ completion m₂, (Execution.execute turns room body f).run m₁ = .ok completion m₂ ∧
          (completion = .normal ∨ completion = .continued) ∧
          LoopCalls turns room condition body f allowed m₂ M)) ?_).fewer ?_
    · intro v m₁ l₁ _ more tallies₁ _
      split
      · refine ((recording.execute tallies₁ (there.mono more) body).bind (fun completion m₂ M =>
          (completion = .normal ∨ completion = .continued) ∧
            LoopCalls turns room condition body f allowed m₂ M) ?_).fewer ?_
        · intro completion m₂ l₂ _ more₂ tallies₂ known
          have others := recording.repeatWhile condition body allowed tallies₂
            ((there.mono more).mono more₂)
          cases completion with
          | normal | continued => exact others.fewer fun M made => made.2
          | broke => exact (Records.pure tallies₂ trivial).fewer fun M made => by simp at made
          | returned v => exact (Records.pure tallies₂ known).fewer fun M made => by simp at made
        · exact fun M made => made.2
      · next falsy => exact (Records.pure tallies₁ trivial).fewer fun M made => falsy made.1
    · rintro _ (@⟨n, m', less, rounds⟩ | @⟨n, m₁, v, m₂, less, rounds, tested, truthy⟩)
      · cases n with
        | zero =>
          cases rounds
          exact .inl rfl
        | succ n =>
          obtain ⟨v, m₁, completion, m₂, tested, truthy, ran, stays, rest⟩ := rounds.first
          have later := LoopCalls.condition (Nat.lt_of_succ_lt_succ less) rest
          exact .inr ⟨v, m₁, tested, truthy, .inr ⟨completion, m₂, ran, stays, later⟩⟩
      · cases n with
        | zero =>
          cases rounds
          exact .inr ⟨v, m₂, tested, truthy, .inl rfl⟩
        | succ n =>
          obtain ⟨w, m₃, completion, m₄, tested', truthy', ran, stays, rest⟩ := rounds.first
          have later := LoopCalls.turn (Nat.lt_of_succ_lt_succ less) rest tested truthy
          exact .inr ⟨w, m₃, tested', truthy', .inr ⟨completion, m₄, ran, stays, later⟩⟩

end Recording

/-- Stack overflow is caught on the machine that was left behind, and so is no loss to the
ledger. -/
theorem records_catchOverflow {line : Int} {body : Eval Value} {calls : Moment → Prop}
    (records : Records turns l body m calls Value.Known) :
    Records turns l (catchOverflow line body) m calls Value.Known := by
  obtain ⟨l', more, ensures, covers⟩ := records
  refine ⟨l', more, ensures.tryCatch fun abort m' _ tallies => ?_, covers⟩
  cases abort <;> exact tallies

/-! ### The walks -/

namespace Recording

/-- Without room nothing is called, and nothing made, so that the ledger stays as it is.  Every walk
stops at once and is itself the one call to be recorded. -/
theorem zero (turns : Nat) : Recording turns 0 := by
  have stop {α : Type} {l : Ledger} {m : Machine} {task : Task} {returns : Ledger → α → Prop}
      (tallies : Tallies l m) (known : ∀ v ∈ task.values, v.Known l)
      (left : Moment.left turns ⟨0, task, m⟩ = m) :
      Records turns l (throw .tooDeep : Eval α) m (· = ⟨0, task, m⟩) returns := by
    refine Records.whole ⟨0, task, m⟩ ?_ tallies known left
    exact (Records.throw tallies _).fewer fun M starts => by cases starts
  exact {
    evaluate := fun tallies _ e => stop tallies (List.forall_mem_nil _) rfl
    call := fun tallies known each paren => stop tallies (List.forall_mem_cons.mpr ⟨known, each⟩) rfl
    invoke := fun tallies known each => stop tallies (List.forall_mem_cons.mpr ⟨known, each⟩) rfl
    runBlock := fun tallies _ ss => stop tallies (List.forall_mem_nil _) rfl
    runLoop := fun tallies _ condition body => stop tallies (List.forall_mem_nil _) rfl
    declareClass := fun tallies _ name superclass methods =>
      stop tallies (List.forall_mem_nil _) rfl
    execute := fun tallies _ s => stop tallies (List.forall_mem_nil _) rfl }

/-- One level of evaluation: each call that an expression makes on its way is one that `Starts` has
a rule for, and the ledger knows the machine it was made on. -/
theorem evaluate_succ (recording : Recording turns room) (tallies : Tallies l m)
    (there : l.There f) (e : Expr) :
    Records turns l (Execution.evaluate turns (room + 1) e f) m
      (Starts turns ⟨room + 1, .evaluate e f, m⟩) Value.Known := by
  have next e := recording.evaluate tallies there e
  -- where several parts are evaluated, each rule of `Starts` is for one of them
  cases e with
  | literal value =>
    exact (Records.pure tallies (Value.known_ofConstant value)).fewer fun M starts => by cases starts
  | grouping inner => exact (next inner).fewer fun M starts => by cases starts; rfl
  | var name hops =>
    exact (records_lookUp tallies f name hops).fewer fun M starts => by cases starts
  | assign name value hops =>
    refine ((next value).andThen fun v m₁ l₁ _ _ tallies₁ known => ?_).fewer ?_
    · refine (records_store tallies₁ f name known hops).andThen ?_
      exact fun _ _ _ _ more₂ tallies₂ _ => .pure tallies₂ (known.mono more₂)
    · exact fun M starts => by cases starts; rfl
  | unary operator right =>
    refine ((next right).andThen fun v m₁ l₁ _ _ tallies₁ _ => ?_).fewer ?_
    · exact records_orFailure tallies₁ operator fun _ => Operator.isPlain_applyUnary
    · exact fun M starts => by cases starts; rfl
  | binary left operator right =>
    refine ((next left).bind (fun _ m₁ M => M = ⟨room, .evaluate right f, m₁⟩) ?_).fewer ?_
    · intro v m₁ l₁ _ more tallies₁ _
      refine (recording.evaluate tallies₁ (there.mono more) right).andThen ?_
      intro w m₂ l₂ _ _ tallies₂ _
      exact records_orFailure tallies₂ operator fun _ => Operator.isPlain_applyBinary
    · intro M starts
      cases starts with
      | left => exact .inl rfl
      | right ran => exact .inr ⟨_, _, ran, rfl⟩
  | logical left operator right =>
    refine ((next left).bind (fun v m₁ M => settles operator v = false ∧
      M = ⟨room, .evaluate right f, m₁⟩) ?_).fewer ?_
    · intro v m₁ l₁ _ more tallies₁ known
      split
      · next settled => exact (Records.pure tallies₁ known).fewer fun M made => by simp [settled] at made
      · exact (recording.evaluate tallies₁ (there.mono more) right).fewer fun M made => made.2
    · intro M starts
      cases starts with
      | logicalLeft => exact .inl rfl
      | logicalRight ran unsettled => exact .inr ⟨_, _, ran, unsettled, rfl⟩
  | call callee paren arguments =>
    refine ((next callee).bind (fun v m₁ M => ArgumentCalls turns room arguments f m₁ M ∨
      ∃ vs m₂, (Execution.allValues (fun e => Execution.evaluate turns room e f) arguments).run m₁
        = .ok vs m₂ ∧ M = ⟨room, .call v vs paren, m₂⟩) ?_).fewer ?_
    · intro v m₁ l₁ _ more tallies₁ known
      refine (recording.allValues arguments tallies₁ (there.mono more)).bind
        (fun vs m₂ M => M = ⟨room, .call v vs paren, m₂⟩) ?_
      intro vs m₂ l₂ _ more₂ tallies₂ each
      exact recording.call tallies₂ (known.mono more₂) each paren
    · intro M starts
      cases starts with
      | callee => exact .inl rfl
      | argument ran ranBefore => exact .inr ⟨_, _, ran, .inl ⟨rfl, ranBefore⟩⟩
      | called ran ranAll => exact .inr ⟨_, _, ran, .inr ⟨_, _, ranAll, rfl⟩⟩
  | getField object name =>
    refine ((next object).andThen fun v m₁ l₁ _ _ tallies₁ known => ?_).fewer ?_
    · exact records_propertyOf tallies₁ known name
    · exact fun M starts => by cases starts; rfl
  | setField object name value =>
    refine ((next object).bind (fun target m₁ M => (∃ i, target = .object i) ∧
      M = ⟨room, .evaluate value f, m₁⟩) ?_).fewer ?_
    · intro target m₁ l₁ _ more tallies₁ known
      cases target with
      | object i =>
        refine ((recording.evaluate tallies₁ (there.mono more) value).andThen ?_).fewer
          fun M made => made.2
        intro v m₂ l₂ _ _ tallies₂ known₂
        refine (records_setProperty tallies₂ known₂ i name.lexeme).andThen ?_
        exact fun _ _ _ _ more₃ tallies₃ _ => .pure tallies₃ (known₂.mono more₃)
      | _ => exact (Records.fail tallies₁ _ _).fewer fun M made => by simp at made
    · intro M starts
      cases starts with
      | fieldObject => exact .inl rfl
      | fieldValue ran => exact .inr ⟨_, _, ran, ⟨_, rfl⟩, rfl⟩
  | this keyword hops =>
    exact (records_lookUp tallies f keyword hops).fewer fun M starts => by cases starts
  | super keyword method hops =>
    exact (records_superMethod tallies f method hops).fewer fun M starts => by cases starts
  | misfit what => exact (Records.throw tallies _).fewer fun M starts => by cases starts

/-- A call invokes what is called, if that can be called with as many arguments.  Otherwise it
fails, and no call is made. -/
theorem call_succ (recording : Recording turns room) (tallies : Tallies l m) {callee : Value}
    {arguments : List Value} (known : callee.Known l) (each : ∀ v ∈ arguments, v.Known l)
    (paren : Token) :
    Records turns l (Execution.call turns (room + 1) callee arguments paren) m
      (Starts turns ⟨room + 1, .call callee arguments paren, m⟩) Value.Known := by
  change Records turns l (callWith _ callee arguments paren) m _ _
  unfold callWith
  split
  · next none =>
    refine (Records.fail tallies _ _).fewer fun M starts => ?_
    cases starts with
    | invoked fits => cases none.symm.trans fits
  · next expected arity =>
    split
    · refine (records_note tallies _).andThenFrom rfl fun l₁ more tallies₁ _ => ?_
      refine (records_catchOverflow (recording.invoke tallies₁ (known.mono more) ?_)).fewer ?_
      · exact fun v mem => (each v mem).mono more
      · exact fun M starts => by cases starts; rfl
    · next other =>
      refine (Records.fail tallies _ _).fewer fun M starts => ?_
      cases starts with
      | invoked fits => exact absurd (Option.some.inj (fits.symm.trans arity)) other

/-- One level of invocation: the body of a function, in a frame that is listed when it is made, or
the initializer of a class. -/
theorem invoke_succ (recording : Recording turns room) (tallies : Tallies l m) {callee : Value}
    {arguments : List Value} (known : callee.Known l) (each : ∀ v ∈ arguments, v.Known l) :
    Records turns l (Execution.invoke turns (room + 1) callee arguments) m
      (Starts turns ⟨room + 1, .invoke callee arguments, m⟩) Value.Known := by
  cases callee with
  | closure c =>
    refine (records_newFrame tallies known).andThenFrom rfl fun l₁ more tallies₁ there => ?_
    have each₁ : ∀ v ∈ arguments, v.Known l₁ := fun v mem => (each v mem).mono more
    refine ((records_bindParams _ c.decl.params tallies₁ each₁).bind
      (fun _ m₂ M => M = ⟨room, .runBlock c.decl.body m.frames.size, m₂⟩) ?_).fewer ?_
    · intro _ m₂ l₂ _ more₂ tallies₂ _
      refine (recording.runBlock tallies₂ (there.mono more₂) c.decl.body).andThen ?_
      exact fun completion _ _ _ _ tallies₃ known₃ => records_outcomeOf tallies₃ c known₃
    · intro M starts
      cases starts with
      | body made bound =>
        cases made
        exact .inr ⟨_, _, bound, rfl⟩
  | cls c =>
    have listed : Making.cls c ∈ l := known
    refine (records_newInstance tallies listed).andThenFrom rfl fun l₁ more tallies₁ object => ?_
    split
    · next init found =>
      have there := tallies₁.method (more listed) found
      refine (records_bindThis tallies₁ there object).andThenFrom rfl ?_
      intro l₂ more₂ tallies₂ bound
      have each₂ : ∀ v ∈ arguments, v.Known l₂ :=
        fun v mem => ((each v mem).mono more).mono more₂
      refine ((recording.invoke tallies₂ bound each₂).andThen ?_).fewer ?_
      · exact fun _ _ _ _ more₃ tallies₃ _ =>
          .pure tallies₃ ((object.mono more₂).mono more₃ : Value.Known _ (.object _))
      · intro M starts
        cases starts with
        | initializer made found' ran =>
          cases made
          cases found.symm.trans found'
          cases ran
          rfl
    · next none =>
      refine (Records.pure tallies₁ object).fewer fun M starts => ?_
      cases starts with
      | initializer made found ran => cases none.symm.trans found
  | native n =>
    cases n
    exact (records_readClock tallies).fewer fun M starts => by cases starts
  | _ => exact (Records.pure tallies trivial).fewer fun M starts => by cases starts

/-- One level of a class declaration: the superclass is evaluated, and has to be listed already.  It
is, since every value that an expression returns is. -/
theorem declareClass_succ (recording : Recording turns room) (tallies : Tallies l m)
    (there : l.There f) (name : Token) (superclass : Option Superclass) (methods : List FunDecl) :
    Records turns l (Execution.declareClass turns (room + 1) name superclass methods f) m
      (Starts turns ⟨room + 1, .declareClass name superclass methods f, m⟩) fun _ _ => True := by
  cases superclass with
  | none =>
    refine (records_makeClass tallies there name methods ?_).fewer fun M starts => by cases starts
    exact fun parent same => by cases same
  | some parent =>
    refine ((recording.evaluate tallies there parent.value).andThen ?_).fewer ?_
    · intro v m₁ l₁ _ more tallies₁ known
      refine (records_requireClass tallies₁ parent.name known).andThen ?_
      intro c m₂ l₂ _ more₂ tallies₂ listed
      refine records_makeClass tallies₂ ((there.mono more).mono more₂) name methods ?_
      intro other same
      cases same
      exact listed
    · exact fun M starts => by cases starts; rfl

/-- One level of execution, by the form of the statement.  A statement with its own scope lists the
frame first that is made for it, and its parts are recorded in the ledger with that entry. -/
theorem execute_succ (recording : Recording turns room) (tallies : Tallies l m)
    (there : l.There f) (s : Stmt) :
    Records turns l (Execution.execute turns (room + 1) s f) m
      (Starts turns ⟨room + 1, .execute s f, m⟩) Completion.Known := by
  refine (records_note tallies _).andThenFrom rfl fun l more tallies _ => ?_
  replace there := there.mono more
  have next e := recording.evaluate tallies there e
  have done {l : Ledger} {m : Machine} (tallies : Tallies l m) :
      Records turns l (pure Completion.normal) m noCall Completion.Known := .pure tallies trivial
  cases s with
  | expr e =>
    refine ((next e).andThen fun _ _ _ _ _ tallies₁ _ => done tallies₁).fewer ?_
    exact fun M starts => by cases starts; rfl
  | print e =>
    refine ((next e).andThen fun v m₁ l₁ _ _ tallies₁ _ => ?_).fewer ?_
    · exact (records_print tallies₁ v).andThen fun _ _ _ _ _ tallies₂ _ => done tallies₂
    · exact fun M starts => by cases starts; rfl
  | varDecl name initializer =>
    have declared {l : Ledger} {m : Machine} {v : Value} (tallies : Tallies l m)
        (known : v.Known l) : Records turns l (do
          define f name.lexeme v
          note (.declared name.lexeme v)
          pure .normal) m noCall Completion.Known := by
      refine (records_define tallies known f _).andThen fun _ _ _ _ _ tallies₁ _ => ?_
      exact (records_note tallies₁ _).andThen fun _ _ _ _ _ tallies₂ _ => done tallies₂
    cases initializer with
    | none => exact (declared (v := .nil) tallies trivial).fewer fun M starts => by cases starts
    | some e =>
      refine ((next e).andThen fun v m₁ l₁ _ _ tallies₁ known => declared tallies₁ known).fewer ?_
      exact fun M starts => by cases starts; rfl
  | block statements =>
    refine (records_newFrame tallies there).andThenFrom rfl fun l₁ _ tallies₁ inner => ?_
    refine (recording.runBlock tallies₁ inner statements).fewer fun M starts => ?_
    cases starts with
    | block made =>
      cases made
      rfl
  | ifElse condition thenBranch elseBranch =>
    refine ((next condition).bind (fun v m₁ M =>
      (v.isTruthy = true ∧ M = ⟨room, .execute thenBranch f, m₁⟩) ∨
      (v.isTruthy = false ∧ ∃ branch, elseBranch = some branch ∧
        M = ⟨room, .execute branch f, m₁⟩)) ?_).fewer ?_
    · intro v m₁ l₁ _ more₁ tallies₁ _
      split
      · next truthy =>
        refine (recording.execute tallies₁ (there.mono more₁) thenBranch).fewer fun M made => ?_
        simpa [truthy] using made
      · next falsy =>
        split
        · refine (recording.execute tallies₁ (there.mono more₁) _).fewer fun M made => ?_
          simpa [falsy] using made
        · refine (done tallies₁).fewer fun M made => ?_
          simp [falsy] at made
    · intro M starts
      cases starts with
      | branchCondition => exact .inl rfl
      | thenBranch tested truthy => exact .inr ⟨_, _, tested, .inl ⟨truthy, rfl⟩⟩
      | elseBranch tested falsy => exact .inr ⟨_, _, tested, .inr ⟨falsy, _, rfl, rfl⟩⟩
  | loop condition body =>
    exact (recording.runLoop tallies there condition body).fewer fun M starts => by
      cases starts; rfl
  | funDecl decl =>
    refine ((records_newClosure tallies decl there false).andThen ?_).fewer fun M starts => by
      cases starts
    intro c m₁ l₁ _ _ tallies₁ known
    refine (records_define tallies₁ known f _).andThen fun _ _ _ _ _ tallies₂ _ => ?_
    exact (records_note tallies₂ _).andThen fun _ _ _ _ _ tallies₃ _ => done tallies₃
  | classDecl name superclass methods =>
    refine ((recording.declareClass tallies there name superclass methods).andThen ?_).fewer ?_
    · exact fun _ _ _ _ _ tallies₁ _ => done tallies₁
    · exact fun M starts => by cases starts; rfl
  | ret keyword value =>
    cases value with
    | none => exact (Records.pure tallies trivial).fewer fun M starts => by cases starts
    | some e =>
      refine ((next e).andThen fun v _ _ _ _ tallies₁ known => ?_).fewer ?_
      · exact .pure tallies₁ known
      · exact fun M starts => by cases starts; rfl
  | brk | cont => exact (Records.pure tallies trivial).fewer fun M starts => by cases starts
  | bare | misfit => exact (Records.throw tallies _).fewer fun M starts => by cases starts

/-- One level more, for all walks at once.  Each walk records the calls that it makes, and becomes a
record of the call that it is itself. -/
theorem succ (recording : Recording turns room) : Recording turns (room + 1) := by
  have noValues (l : Ledger) : ∀ v ∈ ([] : List Value), v.Known l := List.forall_mem_nil _
  refine ⟨?_, ?_, ?_, ?_, ?_, ?_, ?_⟩
  · intro l m f tallies there e
    have part := recording.evaluate_succ tallies there e
    exact part.whole ⟨room + 1, .evaluate e f, m⟩ tallies (noValues l) rfl
  · intro l m callee arguments tallies known each paren
    have part := recording.call_succ tallies known each paren
    exact part.whole ⟨room + 1, .call callee arguments paren, m⟩ tallies
      (List.forall_mem_cons.mpr ⟨known, each⟩) rfl
  · intro l m callee arguments tallies known each
    have part := recording.invoke_succ tallies known each
    exact part.whole ⟨room + 1, .invoke callee arguments, m⟩ tallies
      (List.forall_mem_cons.mpr ⟨known, each⟩) rfl
  · intro l m f tallies there ss
    refine Records.whole ⟨room + 1, .runBlock ss f, m⟩
      ((recording.inOrder ss tallies there).fewer fun M starts => ?_) tallies (noValues l) rfl
    cases starts with
    | statement ran => exact ⟨rfl, ran⟩
  · intro l m f tallies there condition body
    refine Records.whole ⟨room + 1, .runLoop condition body f, m⟩
      ((recording.repeatWhile condition body turns tallies there).fewer fun M starts => ?_) tallies
      (noValues l) rfl
    cases starts with
    | condition less rounds => exact .condition less rounds
    | turn less rounds tested truthy => exact .turn less rounds tested truthy
  · intro l m f tallies there name superclass methods
    have part := recording.declareClass_succ tallies there name superclass methods
    exact part.whole ⟨room + 1, .declareClass name superclass methods f, m⟩ tallies (noValues l) rfl
  · intro l m f tallies there s
    have part := recording.execute_succ tallies there s
    exact part.whole ⟨room + 1, .execute s f, m⟩ tallies (noValues l) rfl

/-- All of the evaluator keeps to it, with any room. -/
theorem all (turns : Nat) : ∀ room, Recording turns room
  | 0 => zero turns
  | room + 1 => (all turns room).succ

end Recording

/-! ### Programs -/

/-- The statements of a program are executed each behind those before it. -/
inductive ProgramCalls (turns room : Nat) (body : List Stmt) (m : Machine) : Moment → Prop
  | intro {before s after m'} (split : body = before ++ s :: after)
      (ran : (runAll turns room before).run m = .ok () m') :
      ProgramCalls turns room body m ⟨room, .execute s Machine.globals, m'⟩

/-- The statements of a program add to one ledger, from the first to the last.  A statement that
makes a jump ends the program, and so the calls of those behind it are not among the calls of the
program. -/
theorem records_runAll (turns room : Nat) : ∀ {l : Ledger} {m : Machine} (body : List Stmt),
    Tallies l m → Records turns l (runAll turns room body) m (ProgramCalls turns room body m)
      fun _ _ => True
  | _, _, [], tallies => by
    refine (Records.pure tallies trivial).fewer ?_
    rintro M ⟨split, -⟩
    simp at split
  | l, m, s :: rest, tallies => by
    have there : l.There Machine.globals := tallies.there_iff.mpr tallies.globals
    refine (((Recording.all turns room).execute tallies there s).bind
      (fun completion m₁ M => completion.jump? = none ∧ ProgramCalls turns room rest m₁ M)
      ?_).fewer ?_
    · intro completion m₁ l₁ _ _ tallies₁ _
      split
      · exact (records_runAll turns room rest tallies₁).fewer fun M made => made.2
      · next jump jumped =>
        exact (Records.throw tallies₁ _).fewer fun M made => by cases jumped.symm.trans made.1
    · rintro _ @⟨before, s', after, m', split, ran⟩
      cases before with
      | nil =>
        cases split
        cases ran
        exact .inl rfl
      | cons first before =>
        cases split
        obtain ⟨completion, m₁, ranFirst, others⟩ := run_bind_ok.mp ran
        cases jumped : completion.jump? with
        | some jump =>
          rw [jumped] at others
          cases others
        | none =>
          rw [jumped] at others
          exact .inr ⟨completion, m₁, ranFirst, jumped, rfl, others⟩

end Execution
end Arbor
