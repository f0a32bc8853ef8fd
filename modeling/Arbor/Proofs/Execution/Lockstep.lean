import Arbor.Proofs.Execution.Jumps
import Arbor.Proofs.Execution.Moment
import Arbor.Proofs.Execution.References

/-!
# Running in lockstep with resolution

A call of the evaluator *follows* a history if what it works on is located there, the machine is
sane, and the frames it and all calls below it make are recorded.  Every call that such a call makes
follows the history too, so the whole run does; and every call that follows it keeps the machine
sane and raises no fault but that of an assignment to a name that is not ready.

The two facts need each other: a call that is made later works on the machine that earlier ones left
behind.  Both go by induction on the room, one case for each rule by which calls are made.

## Main definitions

* `Follows`: calls that go with a history.
* `Lockstep`: what calls with a given room come to.

## Main statements

* `Follows.starts`, `Follows.reaches`: all calls of a run go with the history.
* `Lockstep.all`: they keep machines sane.
-/

namespace Arbor
namespace Execution

open Eval Stateful Scope

/-- A completion whose value goes with a history. -/
def CompletionFits (h : History) (frames : Frames Value) : Completion → Prop
  | .returned v => Fits h frames v
  | _ => True

/-- What a call works on goes with a history. -/
def Moment.Good (h : History) (M : Moment) : Prop :=
  match M.task with
  | .evaluate e f => ExprAt h M.machine.frames f e
  | .call callee arguments _ =>
    Fits h M.machine.frames callee ∧ ∀ v ∈ arguments, Fits h M.machine.frames v
  | .invoke callee arguments =>
    (Fits h M.machine.frames callee ∧ ∀ v ∈ arguments, Fits h M.machine.frames v) ∧
      callee.arity? = some arguments.length
  | .runBlock ss f => StmtsAt h M.machine.frames f ss
  | .runLoop condition body f => StmtAt h M.machine.frames f (.loop condition body)
  | .declareClass name superclass methods f =>
    StmtAt h M.machine.frames f (.classDecl name superclass methods)
  | .execute s f => StmtAt h M.machine.frames f s

/-- A call that goes with a history. -/
structure Follows (h : History) (turns : Nat) (M : Moment) : Prop where
  sane : Sane h M.machine
  good : M.Good h
  recorded : ∀ M', Reaches turns M M' → ∀ site f, Makes turns M' site f → h.made site f

/-- What the calls with a given room that go with a history come to. -/
structure Lockstep (h : History) (turns room : Nat) : Prop where
  evaluate : ∀ {e f m}, Follows h turns ⟨room, .evaluate e f, m⟩ →
    Upholds h (evaluate turns room e f) m fun v m' => Fits h m'.frames v
  call : ∀ {callee arguments paren m}, Follows h turns ⟨room, .call callee arguments paren, m⟩ →
    Upholds h (call turns room callee arguments paren) m fun v m' => Fits h m'.frames v
  invoke : ∀ {callee arguments m}, Follows h turns ⟨room, .invoke callee arguments, m⟩ →
    Upholds h (invoke turns room callee arguments) m fun v m' => Fits h m'.frames v
  runBlock : ∀ {ss f m}, Follows h turns ⟨room, .runBlock ss f, m⟩ →
    Upholds h (runBlock turns room ss f) m fun completion m' =>
      CompletionFits h m'.frames completion
  runLoop : ∀ {e s f m}, Follows h turns ⟨room, .runLoop e s f, m⟩ →
    Upholds h (runLoop turns room e s f) m fun completion m' =>
      CompletionFits h m'.frames completion
  declareClass : ∀ {name superclass methods f m},
    Follows h turns ⟨room, .declareClass name superclass methods f, m⟩ →
    Upholds h (declareClass turns room name superclass methods f) m fun _ _ => True
  execute : ∀ {s f m}, Follows h turns ⟨room, .execute s f, m⟩ →
    Upholds h (execute turns room s f) m fun completion m' => CompletionFits h m'.frames completion

variable {h : History} {turns room : Nat} {f : FrameId} {m m' m₁ m₂ : Machine}

namespace Follows

/-- A call that is made is recorded with the one that makes it. -/
theorem made {M M' : Moment} (follows : Follows h turns M) (starts : Starts turns M M')
    (sane : Sane h M'.machine) (good : M'.Good h) : Follows h turns M' :=
  ⟨sane, good, fun _ reaches => follows.recorded _ (.head starts reaches)⟩

theorem origin {M : Moment} {site : Site} (follows : Follows h turns M)
    (makes : Makes turns M site f) : h.made site f :=
  follows.recorded _ .refl site f makes

end Follows

/-! ### Arguments -/

/-- Arguments in two parts: first the one and then the other, with the values one behind the
other. -/
theorem run_allValues_append {value : Expr → Eval Value} : ∀ {es es' : List Expr}
    {vs vs' : List Value} {m m₁ m₂ : Machine}, (allValues value es).run m = .ok vs m₁ →
      (allValues value es').run m₁ = .ok vs' m₂ →
      (allValues value (es ++ es')).run m = .ok (vs ++ vs') m₂
  | [], _, _, _, _, _, _, ran, ran' => by
    cases ran
    exact ran'
  | e :: rest, es', _, vs', m, m₁, m₂, ran, ran' => by
    simp only [allValues, run_bind_ok, run_pure_ok] at ran
    obtain ⟨v, mv, ranFirst, vs, mvs, ranRest, rfl, rfl⟩ := ran
    simp only [List.cons_append, allValues, run_bind_ok, run_pure_ok]
    exact ⟨v, mv, ranFirst, vs ++ vs', m₂, run_allValues_append ranRest ran', rfl, rfl⟩

/-- One more value behind those that were found. -/
theorem run_allValues_concat {value : Expr → Eval Value} {es : List Expr} {e : Expr}
    {vs : List Value} {v : Value} {m m₁ m₂ : Machine} (ran : (allValues value es).run m = .ok vs m₁)
    (last : (value e).run m₁ = .ok v m₂) :
    (allValues value (es ++ [e])).run m = .ok (vs ++ [v]) m₂ := by
  refine run_allValues_append ran ?_
  simp only [allValues, run_bind_ok, run_pure_ok]
  exact ⟨v, m₂, last, [], m₂, ⟨rfl, rfl⟩, rfl, rfl⟩

/-- The arguments of a call are evaluated one after the other; `before` are those that have been.
The list is split in three, because a call that is made for an argument is identified by the run of
the arguments in front of it. -/
theorem Lockstep.allValues (lockstep : Lockstep h turns room) {callee : Expr} {paren : Token}
    {arguments : List Expr} {v : Value}
    (follows : Follows h turns ⟨room + 1, .evaluate (.call callee paren arguments) f, m⟩)
    (ran : (Execution.evaluate turns room callee f).run m = .ok v m₁) :
    ∀ (rest before after : List Expr) {vs : List Value} {m₂ : Machine},
      arguments = before ++ (rest ++ after) →
      (Execution.allValues (fun e => Execution.evaluate turns room e f) before).run m₁ = .ok vs m₂ →
      Sane h m₂ → Upholds h (Execution.allValues (fun e => Execution.evaluate turns room e f) rest)
        m₂ fun vs m' => ∀ v ∈ vs, Fits h m'.frames v
  | [], _, _, _, _, _, _, sane => .pure sane fun v mem => absurd mem List.not_mem_nil
  | e :: rest, before, after, vs, m₂, split, ranBefore, sane => by
    have located : ExprAt h m.frames f (.call callee paren arguments) := follows.good
    subst split
    have here := (located.argument.calm follows.sane.there (changes_evaluate ran)).calm
      (Nat.lt_of_lt_of_le follows.sane.there (changes_evaluate ran : Frames.Changes f [] _ _).size)
      (changes_allValues ranBefore)
    have first := lockstep.evaluate (follows.made (.argument ran ranBefore) sane here)
    refine first.bind fun v m₃ ranFirst sane₃ fits => ?_
    -- the value of `e` joins those before it, and the others are next
    have others := lockstep.allValues follows ran rest (before ++ [e]) after (by simp)
      (run_allValues_concat ranBefore ranFirst) sane₃
    refine others.bind fun vs m₄ ranRest sane₄ each => .pure sane₄ fun w mem => ?_
    rcases List.mem_cons.mp mem with rfl | mem
    · exact fits.mono (changes_allValues ranRest : Frames.Changes f [] _ _)
    · exact each w mem

/-! ### Statements in order -/

/-- Statements in two parts: the second runs if the first one completed normally. -/
theorem run_inOrder_append {run : Stmt → Eval Completion} {completion : Completion} :
    ∀ {ss ss' : List Stmt} {m m₁ m₂ : Machine}, (inOrder run ss).run m = .ok .normal m₁ →
      (inOrder run ss').run m₁ = .ok completion m₂ →
      (inOrder run (ss ++ ss')).run m = .ok completion m₂
  | [], _, _, _, _, ran, ran' => by
    cases ran
    exact ran'
  | s :: rest, ss', m, m₁, m₂, ran, ran' => by
    obtain ⟨first, ms, ranFirst, ranRest⟩ := run_bind_ok.mp ran
    refine run_bind_ok.mpr ⟨first, ms, ranFirst, ?_⟩
    cases first with
    | normal => exact run_inOrder_append ranRest ran'
    | _ => cases ranRest

/-- One more statement behind those that completed. -/
theorem run_inOrder_concat {run : Stmt → Eval Completion} {ss : List Stmt} {s : Stmt}
    {m m₁ m₂ : Machine} (ran : (inOrder run ss).run m = .ok .normal m₁)
    (last : (run s).run m₁ = .ok .normal m₂) :
    (inOrder run (ss ++ [s])).run m = .ok .normal m₂ :=
  run_inOrder_append ran (run_bind_ok.mpr ⟨_, m₂, last, rfl⟩)

/-- Statements that completed have bound the names they introduce.  The name of a declaration is
bound when that completes, and the statements after it keep what is bound. -/
theorem holds_inOrder : ∀ {ss : List Stmt} {m m' : Machine},
    (∀ s ∈ ss, s.isDeclaration = true ∨ s.introduces = []) → f < m.frames.size →
    (inOrder (fun s => execute turns room s f) ss).run m = .ok .normal m' →
      ∀ name ∈ introducedBy ss, (m'.frames.local? f name).isSome = true
  | [], _, _, _, _, _, _, mem => absurd mem List.not_mem_nil
  | s :: rest, m, m', each, there, ran, name, mem => by
    obtain ⟨first, m₁, ranFirst, ranRest⟩ := run_bind_ok.mp ran
    cases first with
    | normal =>
      have changes := changes_execute ranFirst
      have later : ∀ s ∈ rest, s.isDeclaration = true ∨ s.introduces = [] :=
        fun s mem => each s (List.mem_cons_of_mem _ mem)
      unfold introducedBy at mem
      rw [List.flatMap_cons, List.mem_append] at mem
      rcases mem with mem | mem
      -- a name of this statement is bound now and kept by the others
      · rcases each s List.mem_cons_self with declares | nothing
        · have held := holds_execute declares there ranFirst name mem
          have keeps := (Keeping.all turns (room + 1)).runBlock rest f
          exact (keeps.of_ok ranRest).keeps f name held
        · rw [nothing] at mem
          exact absurd mem List.not_mem_nil
      · exact holds_inOrder later (Nat.lt_of_lt_of_le there changes.size) ranRest name mem
    | _ => cases ranRest

theorem changes_inOrder {ss : List Stmt} {completion : Completion}
    (ran : (inOrder (fun s => execute turns room s f) ss).run m = .ok completion m') :
    m.frames.Changes f (introducedBy ss) m'.frames :=
  ((Keeping.all turns (room + 1)).runBlock ss f).of_ok ran

/-- A statement of a block is located behind those before it.  These have run to their ends, so that
the frame holds the names they declare. -/
theorem StmtsAt.behind {before after : List Stmt} {s : Stmt}
    (located : StmtsAt h m.frames f (before ++ s :: after)) (sane : Sane h m)
    (ran : (inOrder (fun s => execute turns room s f) before).run m = .ok .normal m') :
    StmtAt h m'.frames f s := by
  refine located.element sane.there (changes_inOrder ran) (holds_inOrder (fun s' mem => ?_) ?_ ran)
  · obtain ⟨left, right, rfl⟩ := List.append_of_mem mem
    rw [List.append_assoc] at located
    exact located.declares
  · obtain ⟨located, -⟩ := located
    exact located.stands.lt_size sane.there

/-- The statements of a block run one after the other; `before` are those that have completed.  The
frame has got their names by then, as the scope had when the next statement was resolved. -/
theorem Lockstep.inOrder (lockstep : Lockstep h turns room) {statements : List Stmt}
    (follows : Follows h turns ⟨room + 1, .runBlock statements f, m⟩) :
    ∀ (rest before after : List Stmt) {m₁ : Machine}, statements = before ++ (rest ++ after) →
      (Execution.inOrder (fun s => Execution.execute turns room s f) before).run m
        = .ok .normal m₁ →
      Sane h m₁ → Upholds h (Execution.inOrder (fun s => Execution.execute turns room s f) rest) m₁
        fun completion m' => CompletionFits h m'.frames completion
  | [], _, _, _, _, _, sane => .pure sane trivial
  | s :: rest, before, after, m₁, split, ranBefore, sane => by
    have located : StmtsAt h m.frames f statements := follows.good
    subst split
    have here := located.behind follows.sane ranBefore
    have first := lockstep.execute (follows.made (.statement ranBefore) sane here)
    refine first.bind fun completion m₂ ranFirst sane₂ fits => ?_
    cases completion with
    | normal =>
      exact lockstep.inOrder follows rest (before ++ [s]) after (by simp)
        (run_inOrder_concat ranBefore ranFirst) sane₂
    | _ => exact .pure sane₂ fits

/-! ### Loops -/

/-- The turns of a loop add no name to its frame, since its body is no declaration. -/
theorem Rounds.changes {condition : Expr} {body : Stmt} {n : Nat} (plain : body.introduces = [])
    (rounds : Rounds turns room condition body f n m m') : m.frames.Changes f [] m'.frames := by
  induction rounds with
  | none => exact .refl f [] _
  | more before tested truthy ran stays ih =>
    have second := changes_execute ran
    rw [plain] at second
    exact (ih.trans (changes_evaluate tested)).trans second

/-- After any number of turns a loop is where it was, on a sane machine.  The induction is on the
turns: a body is no declaration, so that a turn adds no name to the frame and the next one finds the
frame in accord with the scope again. -/
theorem Lockstep.rounds (lockstep : Lockstep h turns room) {condition : Expr} {body : Stmt} {n : Nat}
    (follows : Follows h turns ⟨room + 1, .runLoop condition body f, m⟩) (bound : n ≤ turns)
    (rounds : Rounds turns room condition body f n m m') :
    Sane h m' ∧ StmtAt h m'.frames f (.loop condition body) := by
  have located : StmtAt h m.frames f (.loop condition body) := follows.good
  induction rounds with
  | none => exact ⟨follows.sane, located⟩
  | @more n m m₁ m₂ m₃ v completion before tested truthy ran stays ih =>
    obtain ⟨sane₁, located₁⟩ := ih follows (Nat.le_of_lt bound) located
    have first := (lockstep.evaluate (follows.made (.condition bound before) sane₁
      located₁.loopCondition)).of_ok tested
    have calm : m₁.frames.Changes f [] m₂.frames := changes_evaluate tested
    have located₂ := located₁.loopBody.calm sane₁.there calm
    have second := (lockstep.execute (follows.made (.turn bound before tested truthy) first.1
      located₂)).of_ok ran
    -- the location does not change from turn to turn, since nothing is added to the frame
    have whole := (Rounds.more before tested truthy ran stays).changes located.introduces_body
    exact ⟨second.1, located.calm follows.sane.there whole⟩

/-- A loop that has made some of its turns makes the others.  The machine in front of each turn is
sane by the turns before it, and a completion that ends the loop fits by the call of the body. -/
theorem Lockstep.repeatWhile (lockstep : Lockstep h turns room) {condition : Expr} {body : Stmt}
    (follows : Follows h turns ⟨room + 1, .runLoop condition body f, m⟩) :
    ∀ {left n : Nat} {m₁ : Machine}, n + left = turns →
      Rounds turns room condition body f n m m₁ →
      Upholds h (Execution.repeatWhile (Execution.evaluate turns room condition f)
        (Execution.execute turns room body f) left) m₁
        fun completion m' => CompletionFits h m'.frames completion
  | 0, n, m₁, bound, rounds => by
    obtain ⟨sane, -⟩ := lockstep.rounds follows (by omega) rounds
    exact ⟨sane, fun fault same => by cases same⟩
  | left + 1, n, m₁, bound, rounds => by
    obtain ⟨sane₁, located₁⟩ := lockstep.rounds follows (by omega) rounds
    have more : n < turns := by omega
    have tested := lockstep.evaluate (follows.made (.condition more rounds) sane₁
      located₁.loopCondition)
    refine tested.bind fun v m₂ ranCondition sane₂ fits => ?_
    split
    · next truthy =>
      have located₂ := located₁.loopBody.calm sane₁.there (changes_evaluate ranCondition)
      have turn := lockstep.execute (follows.made (.turn more rounds ranCondition truthy) sane₂
        located₂)
      refine turn.bind fun completion m₃ ranBody sane₃ fits => ?_
      cases completion with
      | normal =>
        exact lockstep.repeatWhile follows (by omega)
          (.more rounds ranCondition truthy ranBody (.inl rfl))
      | continued =>
        exact lockstep.repeatWhile follows (by omega)
          (.more rounds ranCondition truthy ranBody (.inr rfl))
      | broke => exact .pure sane₃ trivial
      | returned v => exact .pure sane₃ fits
    · exact .pure sane₂ trivial

/-! ### Calls that are made -/

/-- A class takes as many arguments as its initializer. -/
theorem arity_of_initializer {c : Class} {init : Closure} {n : Nat}
    (found : c.initializer? = some init) (fits : (Value.cls c).arity? = some n) : init.arity = n := by
  change some c.arity = some n at fits
  unfold Class.arity at fits
  rw [found] at fits
  exact Option.some.inj fits

/-- The body of a function, in a new frame that holds the arguments.  There are as many as
parameters, by what a call checks before it is made, so each parameter is bound. -/
theorem Follows.body {c : Closure} {arguments : List Value} {g : FrameId}
    (follows : Follows h turns ⟨room + 1, .invoke (.closure c) arguments, m⟩)
    (made : (newFrame c.frame).run m = .ok g m₁)
    (bound : (bindParams g c.decl.params arguments).run m₁ = .ok () m₂) :
    Sane h m₂ ∧ StmtsAt h m₂.frames g c.decl.body := by
  obtain ⟨⟨fits, fitsAll⟩, arity⟩ := follows.good
  have fits : ClosureFits h m.frames c := fits
  cases made
  have changes : m.frames.Changes m.frames.size [] (m.frames.make (some c.frame)) := .make _
  have params := upholds_bindParams (f := m.frames.size) (follows.sane.make (some c.frame))
    fits.plain_params fun v mem => (fitsAll v mem).mono changes
  refine ⟨(params.of_ok bound).1, ?_⟩
  have same : c.decl.params.length = arguments.length := Option.some.inj arity
  exact fits.body (follows.origin .body) ((binds_bindParams _ _).of_ok bound)
    (holds_bindParams same (by simp) bound)

/-- The initializer of a class, bound to a new instance.  It fits, because it is a method of the
class, and takes as many arguments as it does unbound. -/
theorem Follows.initializer {c : Class} {arguments : List Value} {i : Instance} {init : Closure}
    (follows : Follows h turns ⟨room + 1, .invoke (.cls c) arguments, m⟩)
    (made : (newInstance c).run m = .ok i m₁) (found : c.initializer? = some init) :
    Sane h m₁ ∧ Upholds h (bindThis init (.object i)) m₁ fun bound m' =>
      ClosureFits h m'.frames bound ∧ bound.arity = init.arity := by
  obtain ⟨⟨fits, fitsAll⟩, arity⟩ := follows.good
  have fits : ClassFits h m.frames c := fits
  cases made
  have sane : Sane h { m with fields := m.fields.push {} } := follows.sane.pushFields
  have origin := follows.origin (.initializer found)
  exact ⟨sane, upholds_bindThis sane (fits _ _ found) fits origin⟩

/-- Every call that a call makes goes with the history if the calling one does.  A call that is made
first is made on the same machine; one behind others is made on the machine that these have left,
which is sane by the assumption for less room. -/
theorem Follows.starts {M M' : Moment} (follows : Follows h turns M) (starts : Starts turns M M')
    (lockstep : ∀ room, room + 1 = M.room → Lockstep h turns room) : Follows h turns M' := by
  have sane := follows.sane
  have good := follows.good
  -- where a call is made behind others, these return to a sane machine by `lockstep`
  cases starts with
  | grouping => exact follows.made .grouping sane good.grouping
  | assigned => exact follows.made .assigned sane good.assigned
  | operand => exact follows.made .operand sane good.operand
  | left => exact follows.made .left sane good.left
  | right ran =>
    have first := (lockstep _ rfl).evaluate (follows.made .left sane good.left)
    exact follows.made (.right ran) (first.of_ok ran).1
      (good.right.calm sane.there (changes_evaluate ran))
  | logicalLeft => exact follows.made .logicalLeft sane good.logicalLeft
  | logicalRight ran unsettled =>
    have first := (lockstep _ rfl).evaluate (follows.made .logicalLeft sane good.logicalLeft)
    exact follows.made (.logicalRight ran unsettled) (first.of_ok ran).1
      (good.logicalRight.calm sane.there (changes_evaluate ran))
  | callee => exact follows.made .callee sane good.callee
  | @argument room callee paren before e after f m v m₁ vs m₂ ran ranBefore =>
    have first := (lockstep _ rfl).evaluate (follows.made .callee sane good.callee)
    have others := (lockstep _ rfl).allValues follows ran before [] (e :: after) rfl rfl
      (first.of_ok ran).1
    have calm : m.frames.Changes f [] m₁.frames := changes_evaluate ran
    exact follows.made (.argument ran ranBefore) (others.of_ok ranBefore).1
      (good.argument.calm sane.there (calm.trans (changes_allValues ranBefore)))
  | @called room callee paren arguments f m v m₁ vs m₂ ran ranAll =>
    have first := (lockstep _ rfl).evaluate (follows.made .callee sane good.callee)
    have others := (lockstep _ rfl).allValues follows ran arguments [] [] (by simp) rfl
      (first.of_ok ran).1
    have calm : m₁.frames.Changes f [] m₂.frames := changes_allValues ranAll
    exact follows.made (.called ran ranAll) (others.of_ok ranAll).1
      ⟨(first.of_ok ran).2.mono calm, (others.of_ok ranAll).2⟩
  | object => exact follows.made .object sane good.object
  | fieldObject => exact follows.made .fieldObject sane good.fieldObject
  | fieldValue ran =>
    have first := (lockstep _ rfl).evaluate (follows.made .fieldObject sane good.fieldObject)
    exact follows.made (.fieldValue ran) (first.of_ok ran).1
      (good.fieldValue.calm sane.there (changes_evaluate ran))
  | invoked fits => exact follows.made (.invoked fits) (sane.note _) ⟨good, fits⟩
  | body made bound =>
    obtain ⟨sane', located⟩ := follows.body made bound
    exact follows.made (.body made bound) sane' located
  | @initializer room c arguments m i m₁ init bound m₂ made found ran =>
    obtain ⟨sane₁, binds⟩ := follows.initializer made found
    obtain ⟨sane₂, fits, same⟩ := binds.of_ok ran
    obtain ⟨⟨-, fitsAll⟩, arity⟩ := good
    cases made
    have calm : Frames.Changes 0 [] _ m₂.frames := (binds_bindThis _ _).of_ok ran
    refine follows.made (.initializer rfl found ran) sane₂ ⟨⟨fits, fun v mem => ?_⟩, ?_⟩
    · exact (fitsAll v mem).mono calm
    -- the arguments were counted for the class, and the class counts for its initializer
    · change some bound.arity = _
      rw [same, arity_of_initializer found arity]
  | @statement room before s after f m m' ran =>
    have all := (lockstep _ rfl).inOrder follows before [] (s :: after) rfl rfl sane
    exact follows.made (.statement ran) (all.of_ok ran).1 (good.behind sane ran)
  | condition some rounds =>
    obtain ⟨sane', located⟩ := (lockstep _ rfl).rounds follows (Nat.le_of_lt some) rounds
    exact follows.made (.condition some rounds) sane' located.loopCondition
  | turn some rounds tested truthy =>
    obtain ⟨sane', located⟩ := (lockstep _ rfl).rounds follows (Nat.le_of_lt some) rounds
    have first := (lockstep _ rfl).evaluate (follows.made (.condition some rounds) sane'
      located.loopCondition)
    exact follows.made (.turn some rounds tested truthy) (first.of_ok tested).1
      (located.loopBody.calm sane'.there (changes_evaluate tested))
  | superclass => exact follows.made .superclass sane good.superclass
  | expression => exact follows.made .expression (sane.note _) good.expression
  | printed => exact follows.made .printed (sane.note _) good.printed
  | initial => exact follows.made .initial (sane.note _) good.initial
  | block made =>
    cases made
    exact follows.made (.block rfl) ((sane.note _).make _) (good.block (follows.origin .block))
  | branchCondition => exact follows.made .branchCondition (sane.note _) good.branchCondition
  | @thenBranch room condition thenBranch elseBranch f m v m' tested truthy =>
    have first := (lockstep _ rfl).evaluate
      (follows.made .branchCondition (sane.note _) good.branchCondition)
    have calm : Frames.Changes f [] _ m'.frames := changes_evaluate tested
    exact follows.made (.thenBranch tested truthy) (first.of_ok tested).1
      (good.thenBranch.calm sane.there calm)
  | @elseBranch room condition thenBranch elseBranch f m v m' tested falsy =>
    have first := (lockstep _ rfl).evaluate
      (follows.made .branchCondition (sane.note _) good.branchCondition)
    have calm : Frames.Changes f [] _ m'.frames := changes_evaluate tested
    exact follows.made (.elseBranch tested falsy) (first.of_ok tested).1
      (good.elseBranch.calm sane.there calm)
  | loop => exact follows.made .loop (sane.note _) good
  | declared => exact follows.made .declared (sane.note _) good
  | returned => exact follows.made .returned (sane.note _) good.returned

/-! ### What calls come to -/

/-- An assignment keeps the machine sane also where it misses, in the initializer of its own
variable.  There it ends in the one fault of a name that a resolved program can end in. -/
theorem upholds_store (sane : Sane h m) {name : Token} {value : Expr} {hops : Option Nat}
    {v : Value} (located : ExprAt h m.frames f (.assign name value hops))
    (fits : Fits h m.frames v) : Upholds h (store f name v hops) m fun _ _ => True := by
  have plain := located.plain_assign.2
  obtain ⟨sites, s, -, -, finds⟩ := located.assign_found
  cases hops with
  | none => exact upholds_assign sane fits plain Machine.globals
  | some d =>
    cases unready : s.isUnready name.lexeme with
    | false =>
      obtain ⟨g, -, reached, -, -, held⟩ := (finds d rfl).1 unready
      exact upholds_assignAt sane fits plain reached (.inl held)
    | true =>
      obtain ⟨rfl, -⟩ := (finds d rfl).2 unready
      exact upholds_assignAt sane fits plain rfl (.inr rfl)

/-- Declaring a function binds its name, which its body can use.  So the function is said to fit in
the machine that has the binding already. -/
theorem sane_funDecl (sane : Sane h m) {decl : FunDecl}
    (located : StmtAt h m.frames f (.funDecl decl)) (id : Nat) :
    Sane h { m with
      made := m.made + 1
      frames := m.frames.define f decl.name.lexeme (.closure ⟨id, decl, f, false⟩) } := by
  have there : f < m.frames.size := by
    obtain ⟨located, -⟩ := located
    exact located.stands.lt_size sane.there
  have changes : m.frames.Changes f [decl.name.lexeme]
      (m.frames.define f decl.name.lexeme (.closure ⟨id, decl, f, false⟩)) :=
    .define (List.mem_singleton_self _) _
  have held : ((m.frames.define f decl.name.lexeme (.closure ⟨id, decl, f, false⟩)).local? f
      decl.name.lexeme).isSome = true := by
    rw [Frames.local?_define_self _ there]
    rfl
  -- the function fits only once its own name is bound
  have fits : ClosureFits h (m.frames.define f decl.name.lexeme (.closure ⟨id, decl, f, false⟩))
      ⟨id, decl, f, false⟩ :=
    located.function changes held
  have counted : Sane h { m with made := m.made + 1 } := sane.congr rfl rfl
  exact counted.define fits fun same => absurd same located.plain_function.2

namespace Lockstep

/-- A call below one that goes with the history. -/
theorem next (lockstep : Lockstep h turns room) {task : Task} {M : Moment}
    (follows : Follows h turns ⟨room + 1, task, m⟩) (starts : Starts turns ⟨room + 1, task, m⟩ M) :
    Follows h turns M :=
  follows.starts starts fun _ same => Nat.succ.inj same ▸ lockstep

/-- One level of evaluation: names are found at their distances, so there is no fault, and the value
fits. -/
theorem evaluate_succ (lockstep : Lockstep h turns room) {e : Expr}
    (follows : Follows h turns ⟨room + 1, .evaluate e f, m⟩) :
    Upholds h (Execution.evaluate turns (room + 1) e f) m fun v m' => Fits h m'.frames v := by
  have sane := follows.sane
  have good : ExprAt h m.frames f e := follows.good
  have next {M : Moment} := lockstep.next follows (M := M)
  cases e with
  | literal value => exact .pure sane (.ofConstant value)
  | grouping inner => exact lockstep.evaluate (next .grouping)
  | var name hops =>
    obtain ⟨_, _, -, -, finds⟩ := good.var_found
    cases hops with
    | none => exact upholds_getGlobal sane name
    | some d =>
      obtain ⟨g, -, reached, -, -, held⟩ := finds d rfl
      refine (upholds_getAt sane reached held).mono fun v m' found => ?_
      rw [found.1]
      exact sane.held g _ v found.2
  | assign name value hops =>
    refine (lockstep.evaluate (next .assigned)).bind fun v m₁ ran sane₁ fits => ?_
    have stored := upholds_store sane₁ (good.calm sane.there (changes_evaluate ran)) fits
    refine stored.bind fun _ m₂ ranStore sane₂ _ => .pure sane₂ ?_
    exact fits.mono ((binds_store _ _ _ _).of_ok ranStore : Frames.Changes f [] _ _)
  | unary operator right =>
    refine (lockstep.evaluate (next .operand)).bind fun v m₁ ran sane₁ fits => ?_
    exact upholds_orFailure sane₁ (fun _ applied => .of_plain (Operator.isPlain_applyUnary applied))
      fun _ => Operator.applyUnary_ne_fault good.known_unary
  | binary left operator right =>
    refine (lockstep.evaluate (next .left)).bind fun v m₁ ran sane₁ fits => ?_
    refine (lockstep.evaluate (next (.right ran))).bind fun w m₂ ran' sane₂ fits' => ?_
    exact upholds_orFailure sane₂ (fun _ applied => .of_plain (Operator.isPlain_applyBinary applied))
      fun _ => Operator.applyBinary_ne_fault good.known_binary
  | logical left operator right =>
    refine (lockstep.evaluate (next .logicalLeft)).bind fun v m₁ ran sane₁ fits => ?_
    split
    · exact .pure sane₁ fits
    · next unsettled => exact lockstep.evaluate (next (.logicalRight ran (by simpa using unsettled)))
  | call callee paren arguments =>
    refine (lockstep.evaluate (next .callee)).bind fun v m₁ ran sane₁ fits => ?_
    have others := lockstep.allValues follows ran arguments [] [] (by simp) rfl sane₁
    refine others.bind fun vs m₂ ranAll sane₂ fitsAll => ?_
    exact lockstep.call (next (.called ran ranAll))
  | getField object name =>
    refine (lockstep.evaluate (next .object)).bind fun v m₁ ran sane₁ fits => ?_
    refine upholds_propertyOf sane₁ fits fun i method same absent found => ?_
    subst same
    exact follows.origin (.property ran absent found)
  | setField object name value =>
    refine (lockstep.evaluate (next .fieldObject)).bind fun target m₁ ran sane₁ fits => ?_
    cases target with
    | object i =>
      refine (lockstep.evaluate (next (.fieldValue ran))).bind fun v m₂ ran' sane₂ fits' => ?_
      exact ⟨sane₂.putField fits', fits'⟩
    | _ => exact .fail sane₁ _ _
  | this keyword hops =>
    obtain ⟨_, _, -, -, d, rfl, finds⟩ := good.this_found
    obtain ⟨g, -, reached, -, -, held⟩ := finds
    refine (upholds_getAt sane reached held).mono fun v m' found => ?_
    rw [found.1]
    exact sane.held g _ v found.2
  | super keyword method hops =>
    obtain ⟨_, _, -, -, -, d, rfl, findsSuper, findsThis⟩ := good.super_found
    obtain ⟨g, -, outer, -, -, heldSuper⟩ := findsSuper
    obtain ⟨k, -, inner, -, -, heldThis⟩ := findsThis
    refine upholds_superMethod sane outer heldSuper inner heldThis ?_
    intro c receiver found parent this named
    exact follows.origin (.super parent this named)
  | misfit what =>
    obtain ⟨-, yields⟩ := good
    cases yields.exprCase

/-- One level of a call: what is called with a wrong number of arguments fails, and a call that is
too deep is turned into a failure, and neither of them is a fault. -/
theorem call_succ (lockstep : Lockstep h turns room) {callee : Value} {arguments : List Value}
    {paren : Token} (follows : Follows h turns ⟨room + 1, .call callee arguments paren, m⟩) :
    Upholds h (Execution.call turns (room + 1) callee arguments paren) m fun v m' =>
      Fits h m'.frames v := by
  have sane := follows.sane
  change Upholds h (callWith _ callee arguments paren) m _
  unfold callWith
  split
  · exact .fail sane _ _
  · next expected arity =>
    split
    · next same =>
      subst same
      refine .note ?_
      have invoked := lockstep.invoke (lockstep.next follows (.invoked arity))
      refine Ensures.tryCatch invoked fun abort m' _ stopped => ?_
      obtain ⟨sane', benign⟩ := stopped
      cases abort with
      | tooDeep => exact Upholds.fail sane' _ _
      | _ => exact ⟨sane', benign⟩
    · exact .fail sane _ _

/-- A function is run in a new frame that holds its arguments.  Its body neither breaks nor
continues, and an initializer returns the instance it was bound to. -/
theorem invoke_closure (lockstep : Lockstep h turns room) {c : Closure} {arguments : List Value}
    (follows : Follows h turns ⟨room + 1, .invoke (.closure c) arguments, m⟩) :
    Upholds h (Execution.invoke turns (room + 1) (.closure c) arguments) m fun v m' =>
      Fits h m'.frames v := by
  obtain ⟨⟨fits, fitsAll⟩, arity⟩ := follows.good
  have fits : ClosureFits h m.frames c := fits
  have new : m.frames.Changes m.frames.size [] (m.frames.make (some c.frame)) := .make _
  have params := upholds_bindParams (f := m.frames.size) (follows.sane.make (some c.frame))
    fits.plain_params fun v mem => (fitsAll v mem).mono new
  change Upholds h (bindParams m.frames.size c.decl.params arguments >>= _)
    { m with frames := m.frames.make (some c.frame) } _
  refine params.bind fun _ m₂ bound sane₂ _ => ?_
  have ran := lockstep.runBlock (lockstep.next follows (.body rfl bound))
  refine ran.bind fun completion m₃ ranBody sane₃ fitsCompletion => ?_
  unfold outcomeOf
  split
  · next init =>
    -- `this` was held when the method was bound, and nothing is ever taken from a frame
    have changes : m.frames.Changes 0 [] m₃.frames := by
      have bound' := (binds_bindParams _ _).of_ok bound
      have body := ((Keeping.all turns room).runBlock c.decl.body m.frames.size).of_ok ranBody
      exact ((new.inside (Nat.le_refl _) bound').inside (Nat.le_refl _) body).calm
    have held := changes.keeps _ _ (fits.2 init)
    refine (upholds_getAt (d := 0) sane₃ rfl held).mono fun v m' found => ?_
    rw [found.1]
    exact sane₃.held _ _ v found.2
  · obtain ⟨⟨_, _, _, _, _, _, _, yields, _⟩, -⟩ := fits
    cases completion with
    | normal => exact .pure sane₃ trivial
    | returned v => exact .pure sane₃ fitsCompletion
    | broke =>
      have lets : Stmt.anyLets .brk c.decl.body = true := lets_of_runBlock ranBody rfl
      rw [lets_body_eq_false yields (by simp)] at lets
      cases lets
    | continued =>
      have lets : Stmt.anyLets .cont c.decl.body = true := lets_of_runBlock ranBody rfl
      rw [lets_body_eq_false yields (by simp)] at lets
      cases lets

/-- A class makes an instance of itself and runs the initializer on it.  The instance fits since its
class does, and still does when the initializer has run. -/
theorem invoke_class (lockstep : Lockstep h turns room) {c : Class} {arguments : List Value}
    (follows : Follows h turns ⟨room + 1, .invoke (.cls c) arguments, m⟩) :
    Upholds h (Execution.invoke turns (room + 1) (.cls c) arguments) m fun v m' =>
      Fits h m'.frames v := by
  have sane := follows.sane
  have fits : ClassFits h m.frames c := follows.good.1.1
  have made : Upholds h (newInstance c) m fun i m' =>
      i = ⟨m.fields.size, c⟩ ∧ m' = { m with fields := m.fields.push {} } :=
    ⟨sane.pushFields, rfl, rfl⟩
  refine made.bind ?_
  rintro _ _ - - ⟨rfl, rfl⟩
  split
  · next init found =>
    obtain ⟨sane₁, binds⟩ := follows.initializer rfl found
    refine binds.bind fun bound m₂ ranBind sane₂ fitsBound => ?_
    have invoked := lockstep.invoke (lockstep.next follows (.initializer rfl found ranBind))
    refine invoked.bind fun _ m₃ ranInit sane₃ _ => .pure sane₃ ?_
    have first : Frames.Changes 0 [] _ m₂.frames := (binds_bindThis _ _).of_ok ranBind
    have second : m₂.frames.Changes 0 [] m₃.frames :=
      ((Keeping.all turns room).invoke _ _ 0).of_ok ranInit
    exact fits.mono (first.trans second)
  · exact .pure sane.pushFields fits

/-- One level of an invocation, by what is invoked: a function, a class, or the clock.  Nothing else
has an arity, so nothing else is invoked. -/
theorem invoke_succ (lockstep : Lockstep h turns room) {callee : Value} {arguments : List Value}
    (follows : Follows h turns ⟨room + 1, .invoke callee arguments, m⟩) :
    Upholds h (Execution.invoke turns (room + 1) callee arguments) m fun v m' =>
      Fits h m'.frames v := by
  have sane := follows.sane
  cases callee with
  | closure c => exact lockstep.invoke_closure follows
  | cls c => exact lockstep.invoke_class follows
  | native n =>
    cases n
    exact ⟨sane.congr rfl rfl, trivial⟩
  | _ => exact .pure sane trivial

/-- One level of a class declaration.  The superclass is evaluated on the machine before, and the
methods are made in a frame that holds the name of the class and, if there is a superclass,
`super`. -/
theorem declareClass_succ (lockstep : Lockstep h turns room) {name : Token}
    {superclass : Option Superclass} {methods : List FunDecl}
    (follows : Follows h turns ⟨room + 1, .declareClass name superclass methods f, m⟩) :
    Upholds h (Execution.declareClass turns (room + 1) name superclass methods f) m
      fun _ _ => True := by
  have sane := follows.sane
  have good : StmtAt h m.frames f (.classDecl name superclass methods) := follows.good
  have plain := good.plain_class.2
  have there : f < m.frames.size := by
    obtain ⟨located, -⟩ := good
    exact located.stands.lt_size sane.there
  -- the name of the class is bound before its methods are made
  have bound {frames : Frames Value} (there : f < frames.size) :
      ((frames.define f name.lexeme .nil).local? f name.lexeme).isSome = true := by
    rw [Frames.local?_define_self _ there]
    rfl
  cases superclass with
  | none =>
    have changes : m.frames.Changes f [name.lexeme] (m.frames.define f name.lexeme .nil) :=
      .define (List.mem_singleton_self _) _
    obtain ⟨sites, scopes, stands, resolved⟩ := good.methods changes (bound there)
    exact upholds_makeClass sane none (.parent name methods) plain stands
      (fun _ none => by cases none) (fun none => by cases none) resolved
  | some parent =>
    refine (lockstep.evaluate (lockstep.next follows .superclass)).bind ?_
    intro v m₁ ran sane₁ fits
    cases v with
    | cls c =>
      have calm : m.frames.Changes f [name.lexeme] m₁.frames :=
        Frames.Changes.calm (changes_evaluate ran : Frames.Changes f [] _ _)
      have changes : m₁.frames.Changes f [name.lexeme] (m₁.frames.define f name.lexeme .nil) :=
        .define (List.mem_singleton_self _) _
      have held := bound (Nat.lt_of_lt_of_le there calm.size)
      obtain ⟨sites, scopes, stands, resolved⟩ :=
        good.inheritingMethods (calm.trans changes) held
      have fits : ClassFits h m₁.frames c := fits
      exact upholds_makeClass sane₁ (some c) (.parent name methods) plain stands
        (fun _ same => by cases same; exact fits)
        (fun _ => follows.origin (.parent ran)) resolved
    | _ => exact ⟨sane₁, fun _ same => by cases same⟩

/-- One level of execution.  What a declaration binds fits, and a completion with a value hands on
one that fits. -/
theorem execute_succ (lockstep : Lockstep h turns room) {s : Stmt}
    (follows : Follows h turns ⟨room + 1, .execute s f, m⟩) :
    Upholds h (Execution.execute turns (room + 1) s f) m fun completion m' =>
      CompletionFits h m'.frames completion := by
  have sane := follows.sane.note (.executed s.found)
  have good : StmtAt h m.frames f s := follows.good
  have next {M : Moment} := lockstep.next follows (M := M)
  refine .note ?_
  cases s with
  | expr e =>
    refine (lockstep.evaluate (next .expression)).bind fun v m₁ ran sane₁ fits => ?_
    exact .pure sane₁ trivial
  | print e =>
    refine (lockstep.evaluate (next .printed)).bind fun v m₁ ran sane₁ fits => ?_
    exact ⟨sane₁.congr rfl rfl, trivial⟩
  | varDecl name initializer =>
    have plain := good.plain_varDecl.2
    cases initializer with
    | none =>
      have defined := upholds_define sane (v := .nil) trivial plain f
      refine defined.bind fun _ m₁ _ sane₁ _ => ?_
      exact ⟨sane₁.note _, trivial⟩
    | some e =>
      refine (lockstep.evaluate (next .initial)).bind fun v m₁ ran sane₁ fits => ?_
      refine (upholds_define sane₁ fits plain f).bind fun _ m₂ _ sane₂ _ => ?_
      exact ⟨sane₂.note _, trivial⟩
  | block statements => exact lockstep.runBlock (next (.block rfl))
  | ifElse condition thenBranch elseBranch =>
    refine (lockstep.evaluate (next .branchCondition)).bind fun v m₁ ran sane₁ fits => ?_
    split
    · next truthy => exact lockstep.execute (next (.thenBranch ran truthy))
    · next falsy =>
      cases elseBranch with
      | none => exact .pure sane₁ trivial
      | some elseBranch =>
        exact lockstep.execute (next (.elseBranch ran (by simpa using falsy)))
  | loop condition body => exact lockstep.runLoop (next .loop)
  | funDecl decl =>
    have defined := sane_funDecl sane good
    exact ⟨(defined _).note _, trivial⟩
  | classDecl name superclass methods =>
    refine (lockstep.declareClass (next .declared)).bind fun _ m₁ _ sane₁ _ => ?_
    exact .pure sane₁ trivial
  | ret keyword e =>
    cases e with
    | none => exact .pure sane trivial
    | some e =>
      refine (lockstep.evaluate (next .returned)).bind fun v m₁ ran sane₁ fits => ?_
      exact .pure sane₁ fits
  | brk keyword => exact .pure sane trivial
  | cont keyword => exact .pure sane trivial
  | bare e => exact good.not_bare.elim
  | misfit what =>
    obtain ⟨-, yields⟩ := good
    cases yields.stmtCase

theorem succ (lockstep : Lockstep h turns room) : Lockstep h turns (room + 1) where
  evaluate := lockstep.evaluate_succ
  call := lockstep.call_succ
  invoke := lockstep.invoke_succ
  runBlock {ss _ _} follows := lockstep.inOrder follows ss [] [] (by simp) rfl follows.sane
  runLoop follows := lockstep.repeatWhile follows (Nat.zero_add turns) (.none _)
  declareClass := lockstep.declareClass_succ
  execute := lockstep.execute_succ

theorem tooDeep {α : Type} {returns : α → Machine → Prop} (sane : Sane h m) :
    Upholds h (throw .tooDeep) m returns :=
  ⟨sane, fun _ same => by cases same⟩

theorem zero : Lockstep h turns 0 where
  evaluate follows := tooDeep follows.sane
  call follows := tooDeep follows.sane
  invoke follows := tooDeep follows.sane
  runBlock follows := tooDeep follows.sane
  runLoop follows := tooDeep follows.sane
  declareClass follows := tooDeep follows.sane
  execute follows := tooDeep follows.sane

/-- Calls keep to it with any room. -/
theorem all (h : History) (turns : Nat) : ∀ room, Lockstep h turns room
  | 0 => zero
  | room + 1 => (all h turns room).succ

end Lockstep

/-- All calls of a run go with the history if the first one does. -/
theorem Follows.reaches {M M' : Moment} (follows : Follows h turns M)
    (reaches : Reaches turns M M') : Follows h turns M' := by
  induction reaches with
  | refl => exact follows
  | tail _ starts ih => exact ih.starts starts fun room _ => .all h turns room

end Execution
end Arbor
