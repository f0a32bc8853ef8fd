import Arbor.Proofs.Execution.Lasting
import Arbor.Proofs.Execution.Taken

/-!
# What `this` and `super` stand for

A frame that holds `this` is made when a method is bound to an instance, and one that holds `super`
when a class with a superclass is declared.  What such a frame was made with it holds for ever:
nothing that runs later changes it.

A call of the evaluator that is made by another one is over before that is, and what that still does
changes no keyword.  So what a call leaves behind lasts until all calls around it are over, one case
for each rule by which calls are made.  From there it is a matter of looking at the six places in
which frames are made.

## Main definitions

* `Moment.left`: the machine that a call leaves behind.
* `Fetches`, `Inherits`: the calls by which `this` and `super` are bound.

## Main statements

* `Follows.lasts`, `Follows.lasts_left`: keywords last through calls, and behind them.
* `Fetches.holds`, `Inherits.holds`, `Makes.keyword`: what the frames that calls make hold then.
-/

namespace Arbor
namespace Execution

open Eval Stateful Scope

/-! ### Sequences and loops, from the middle on -/

section Middle

variable {turns room : Nat} {f : FrameId} {m m₁ : Machine}

theorem allValues_append (value : Expr → Eval Value) : ∀ es es' : List Expr,
    allValues value (es ++ es') = (do
      let first ← allValues value es
      let rest ← allValues value es'
      pure (first ++ rest))
  | [], es' => by simp [allValues]
  | e :: es, es' => by simp [allValues, allValues_append value es es']

/-- Behind statements that completed the others run, on the machine that those have left behind. -/
theorem run_inOrder_of_normal {run : Stmt → Eval Completion} : ∀ {ss ss' : List Stmt}
    {m m₁ : Machine}, (inOrder run ss).run m = .ok .normal m₁ →
      (inOrder run (ss ++ ss')).run m = (inOrder run ss').run m₁
  | [], _, _, _, ran => by
    cases ran
    rfl
  | s :: rest, ss', m, m₁, ran => by
    obtain ⟨first, m₂, ranFirst, ranRest⟩ := run_bind_ok.mp ran
    cases first with
    | normal =>
      rw [List.cons_append, inOrder, EStateM.run_bind, ranFirst]
      exact run_inOrder_of_normal ranRest
    | _ => cases ranRest

/-- How a loop goes on behind a turn: it ends, or it is the loop again with a turn less. -/
theorem keeps_afterTurn {condition : Eval Value} {body : Eval Completion} {others : Nat}
    (completion : Completion) (stays : completion = .normal ∨ completion = .continued →
      Keeps (repeatWhile condition body others) m) :
    Keeps (match completion with
      | .broke => pure .normal
      | .returned value => pure (.returned value)
      | .normal | .continued => repeatWhile condition body others) m := by
  cases completion with
  | normal => exact stays (.inl rfl)
  | continued => exact stays (.inr rfl)
  | broke | returned => exact .pure _

/-- Behind `n` turns the loop is itself with `n` turns less, so what it leaves behind is what the
rest of it does. -/
theorem Rounds.left_repeatWhile {condition : Expr} {body : Stmt} {n : Nat}
    (rounds : Rounds turns room condition body f n m m₁) (more : n < turns) :
    ∃ others, n + 1 + others = turns ∧
      left (repeatWhile (evaluate turns room condition f) (execute turns room body f) turns) m =
        left (repeatWhile (evaluate turns room condition f) (execute turns room body f)
          (others + 1)) m₁ := by
  obtain ⟨others, split⟩ : ∃ others, others + 1 + n = turns := ⟨turns - n - 1, by omega⟩
  have behind := rounds.run_repeatWhile (others + 1)
  rw [split] at behind
  exact ⟨others, by omega, left_congr behind⟩

end Middle

/-! ### Calls of the evaluator -/

/-- The machine that a call of the evaluator leaves behind, however it ends. -/
def Moment.left (turns : Nat) (M : Moment) : Machine :=
  match M.task with
  | .evaluate e f => Execution.left (evaluate turns M.room e f) M.machine
  | .call callee arguments paren =>
    Execution.left (call turns M.room callee arguments paren) M.machine
  | .invoke callee arguments => Execution.left (invoke turns M.room callee arguments) M.machine
  | .runBlock ss f => Execution.left (runBlock turns M.room ss f) M.machine
  | .runLoop condition body f => Execution.left (runLoop turns M.room condition body f) M.machine
  | .declareClass name superclass methods f =>
    Execution.left (declareClass turns M.room name superclass methods f) M.machine
  | .execute s f => Execution.left (execute turns M.room s f) M.machine

/-- Keywords last through all calls with a given room that go with a history. -/
def KeepsAll (h : History) (turns room : Nat) : Prop :=
  ∀ ⦃task : Task⦄ ⦃m : Machine⦄, Follows h turns ⟨room, task, m⟩ →
    Lasts m (Moment.left turns ⟨room, task, m⟩)

variable {h : History} {turns room : Nat} {f : FrameId} {m m' m₁ m₂ : Machine}

/-- A call below one that goes with the history. -/
theorem Follows.below {M M' : Moment} (follows : Follows h turns M) (starts : Starts turns M M') :
    Follows h turns M' :=
  follows.reaches (.single starts)

namespace KeepsAll

/-- The arguments of a call behind those in `before`.  Each is a call of its own, which keeps what
is bound, and is identified by the run of those in front of it. -/
theorem allValues (keeps : KeepsAll h turns room) {callee : Expr} {paren : Token}
    {arguments : List Expr} {v : Value}
    (follows : Follows h turns ⟨room + 1, .evaluate (.call callee paren arguments) f, m⟩)
    (ran : (evaluate turns room callee f).run m = .ok v m₁) :
    ∀ (rest before : List Expr) {vs : List Value} {m₂ : Machine}, arguments = before ++ rest →
      (Execution.allValues (fun e => evaluate turns room e f) before).run m₁ = .ok vs m₂ →
      Keeps (Execution.allValues (fun e => evaluate turns room e f) rest) m₂
  | [], _, _, _, _, _ => .pure _
  | e :: rest, before, vs, m₂, split, ranBefore => by
    subst split
    have first : Keeps (evaluate turns room e f) m₂ := keeps (follows.below (.argument ran ranBefore))
    refine first.bind fun w m₃ ranFirst => ?_
    have others := keeps.allValues follows ran rest (before ++ [e]) (by simp)
      (run_allValues_concat ranBefore ranFirst)
    exact others.bind fun _ _ _ => .pure _

/-- The statements of a block behind those in `before`, which have completed.  One that makes a jump
ends the block, and then there is nothing behind it. -/
theorem inOrder (keeps : KeepsAll h turns room) {statements : List Stmt}
    (follows : Follows h turns ⟨room + 1, .runBlock statements f, m⟩) :
    ∀ (rest before : List Stmt) {m₁ : Machine}, statements = before ++ rest →
      (Execution.inOrder (fun s => execute turns room s f) before).run m = .ok .normal m₁ →
      Keeps (Execution.inOrder (fun s => execute turns room s f) rest) m₁
  | [], _, _, _, _ => .pure _
  | s :: rest, before, m₁, split, ranBefore => by
    subst split
    have first : Keeps (execute turns room s f) m₁ := keeps (follows.below (.statement ranBefore))
    refine first.bind fun completion m₂ ranFirst => ?_
    cases completion with
    | normal =>
      exact keeps.inOrder follows rest (before ++ [s]) (by simp)
        (run_inOrder_concat ranBefore ranFirst)
    | _ => exact .pure _

/-- A loop that has made some of its turns.  The condition and the body of every turn are calls of
their own, so what they bind lasts as long as they do, and what is left of the loop is shorter by a
turn. -/
theorem repeatWhile (keeps : KeepsAll h turns room) {condition : Expr} {body : Stmt}
    (follows : Follows h turns ⟨room + 1, .runLoop condition body f, m⟩) :
    ∀ {others n : Nat} {m₁ : Machine}, n + others = turns →
      Rounds turns room condition body f n m m₁ →
      Keeps (Execution.repeatWhile (evaluate turns room condition f)
        (execute turns room body f) others) m₁
  | 0, _, _, _, _ => .throw _
  | others + 1, n, m₁, bound, rounds => by
    have more : n < turns := by omega
    have tested : Keeps (evaluate turns room condition f) m₁ :=
      keeps (follows.below (.condition more rounds))
    refine tested.bind fun v m₂ ranCondition => ?_
    split
    · next truthy =>
      have turn : Keeps (execute turns room body f) m₂ :=
        keeps (follows.below (.turn more rounds ranCondition truthy))
      refine turn.bind fun completion m₃ ranBody => keeps_afterTurn completion fun stays => ?_
      exact keeps.repeatWhile follows (by omega) (.more rounds ranCondition truthy ranBody stays)
    · exact .pure _

end KeepsAll

/-- Catching the lack of room makes an error of it and leaves the machine alone. -/
theorem left_catchOverflow (line : Int) (body : Eval Value) (m : Machine) :
    left (catchOverflow line body) m = left body m := by
  have caught : (catchOverflow line body).run m = EStateM.tryCatch body _ m := rfl
  unfold left
  rw [caught]
  unfold EStateM.tryCatch
  cases ran : body m with
  | ok v m' =>
    change body.run m = _ at ran
    rw [ran]
  | error abort m' =>
    change body.run m = _ at ran
    rw [ran]
    cases abort <;> rfl

/-- A call with the right number of arguments leaves behind what the invocation does, on a machine
that has noted the call. -/
theorem left_callWith (invoke : Eval Value) {callee : Value} {arguments : List Value} (paren : Token)
    (m : Machine) (fits : callee.arity? = some arguments.length) :
    left (callWith invoke callee arguments paren) m =
      left invoke (m.note (.called callee arguments.length paren.line)) := by
  rw [← left_catchOverflow paren.line invoke]
  unfold callWith
  rw [fits]
  dsimp only
  rw [if_pos rfl]
  rfl

/-- What a call leaves behind that another one made lasts until that is over.  There is a case for
each call that may be made; what the calling one still does in that case are effects that keep the
bindings of the keywords, and further calls, which have less room. -/
theorem Follows.lasts_left_of {M M' : Moment} (follows : Follows h turns M)
    (starts : Starts turns M M') (keeps : ∀ room, room + 1 = M.room → KeepsAll h turns room) :
    Lasts (M'.left turns) (M.left turns) := by
  have good := follows.good
  have next {M₁ : Moment} (starts : Starts turns M M₁) := follows.below starts
  -- each case is about what the calling one still does; calls among that keep to it by `keeps`
  cases starts with
  | grouping => exact .refl _
  | assigned =>
    refine lasts_left_bind fun v m₁ _ => ?_
    exact (keeps_store _ good.plain_assign v _).bind fun _ _ _ => .pure _
  | operand => exact lasts_left_bind fun _ _ _ => keeps_orFailure _ _
  | left =>
    refine lasts_left_bind fun v m₁ ran => ?_
    exact Keeps.bind (keeps _ rfl (next (.right ran))) fun _ _ _ => keeps_orFailure _ _
  | @right room left operator right f m v m₁ ran =>
    change Lasts _ (Execution.left (evaluate turns room left f >>= _) m)
    rw [left_bind_of_ok ran]
    exact lasts_left_bind fun _ _ _ => keeps_orFailure _ _
  | logicalLeft =>
    refine lasts_left_bind fun v m₁ ran => ?_
    split
    · exact .pure v
    · next unsettled => exact keeps _ rfl (next (.logicalRight ran (by simpa using unsettled)))
  | @logicalRight room left operator right f m v m₁ ran unsettled =>
    change Lasts _ (Execution.left (evaluate turns room left f >>= _) m)
    rw [left_bind_of_ok ran, unsettled]
    exact .refl _
  | @callee room callee paren arguments f m =>
    refine lasts_left_bind fun v m₁ ran => ?_
    refine Keeps.bind ((keeps _ rfl).allValues follows ran arguments [] rfl rfl) fun vs m₂ ranAll => ?_
    exact keeps _ rfl (next (.called ran ranAll))
  | @argument room callee paren before e after f m v m₁ vs m₂ ran ranBefore =>
    change Lasts _ (Execution.left (evaluate turns room callee f >>= _) m)
    rw [left_bind_of_ok ran, allValues_append, bind_assoc, left_bind_of_ok ranBefore]
    simp only [allValues, bind_assoc, pure_bind]
    refine lasts_left_bind fun w m₃ ranHere => ?_
    have earlier := run_allValues_concat ranBefore ranHere
    have others := (keeps _ rfl).allValues follows ran after (before ++ [e]) (by simp) earlier
    refine others.bind fun ws m₄ ranAfter => ?_
    have ranAll := run_allValues_append earlier ranAfter
    simp only [List.append_assoc, List.singleton_append] at ranAll
    exact keeps _ rfl (next (.called ran ranAll))
  | @called room callee paren arguments f m v m₁ vs m₂ ran ranAll =>
    change Lasts _ (Execution.left (evaluate turns room callee f >>= _) m)
    rw [left_bind_of_ok ran, left_bind_of_ok ranAll]
    exact .refl _
  | object => exact lasts_left_bind fun _ _ _ => keeps_propertyOf _ _
  | fieldObject =>
    refine lasts_left_bind fun target m₁ ran => ?_
    cases target with
    | object i =>
      refine Keeps.bind (keeps _ rfl (next (.fieldValue ran))) fun v m₂ _ => ?_
      exact (keeps_setProperty _ _ _).bind fun _ _ _ => .pure _
    | _ => exact .throw _
  | @fieldValue room object name value f m i m₁ ran =>
    change Lasts _ (Execution.left (evaluate turns room object f >>= _) m)
    rw [left_bind_of_ok ran]
    exact lasts_left_bind fun _ _ _ => (keeps_setProperty _ _ _).bind fun _ _ _ => .pure _
  | @invoked room callee arguments paren m fits =>
    change Lasts _ (Execution.left (callWith _ callee arguments paren) m)
    rw [left_callWith _ paren m fits]
    exact .refl _
  | @body room c arguments m m₁ m₂ f made bound =>
    change Lasts _ (Execution.left (newFrame c.frame >>= _) m)
    rw [left_bind_of_ok made, left_bind_of_ok bound]
    exact lasts_left_bind fun _ _ _ => keeps_outcomeOf _ _
  | @initializer room c arguments m i m₁ init bound m₂ made found ran =>
    change Lasts _ (Execution.left (newInstance c >>= _) m)
    rw [left_bind_of_ok made, found]
    dsimp only
    rw [left_bind_of_ok ran]
    exact lasts_left_bind fun _ _ _ => .pure _
  | @statement room before s after f m m₁ ran =>
    change Lasts _ (Execution.left (inOrder (fun s => execute turns room s f) _) m)
    rw [left_congr (run_inOrder_of_normal ran)]
    refine lasts_left_bind fun completion m₂ ranHere => ?_
    cases completion with
    | normal =>
      exact (keeps _ rfl).inOrder follows after (before ++ [s]) (by simp)
        (run_inOrder_concat ran ranHere)
    | _ => exact .pure _
  | @condition room condition body f n m m₁ some rounds =>
    obtain ⟨others, bound, behind⟩ := rounds.left_repeatWhile some
    change Lasts _ (Execution.left (repeatWhile _ _ turns) m)
    rw [behind]
    refine lasts_left_bind fun v m₂ tested => ?_
    split
    · next truthy =>
      refine Keeps.bind (keeps _ rfl (next (.turn some rounds tested truthy)))
        fun completion m₃ ran => keeps_afterTurn completion fun stays => ?_
      exact (keeps _ rfl).repeatWhile follows bound (.more rounds tested truthy ran stays)
    · exact .pure _
  | @turn room condition body f n m m₁ v m₂ some rounds tested truthy =>
    obtain ⟨others, bound, behind⟩ := rounds.left_repeatWhile some
    change Lasts _ (Execution.left (repeatWhile _ _ turns) m)
    rw [behind, repeatWhile, left_bind_of_ok tested, if_pos truthy]
    refine lasts_left_bind fun completion m₃ ran => keeps_afterTurn completion fun stays => ?_
    exact (keeps _ rfl).repeatWhile follows bound (.more rounds tested truthy ran stays)
  | superclass =>
    refine lasts_left_bind fun v m₁ _ => ?_
    exact (keeps_requireClass _ _).bind fun c _ _ => keeps_makeClass _ good.plain_class _ _
  | expression => exact lasts_left_bind fun _ _ _ => .pure _
  | printed => exact lasts_left_bind fun _ _ _ => (keeps_print _).bind fun _ _ _ => .pure _
  | initial =>
    refine lasts_left_bind fun v m₁ _ => ?_
    refine (keeps_define good.plain_varDecl _ v).bind fun _ _ _ => ?_
    exact (keeps_note _).bind fun _ _ _ => .pure _
  | block made =>
    cases made
    exact .refl _
  | branchCondition =>
    refine lasts_left_bind fun v m₁ tested => ?_
    split
    · next truthy => exact keeps _ rfl (next (.thenBranch tested truthy))
    · next falsy =>
      split
      · exact keeps _ rfl (next (.elseBranch tested (by simpa using falsy)))
      · exact .pure _
  | @thenBranch room condition thenBranch elseBranch f m v m₁ tested truthy =>
    change Lasts _ (Execution.left (evaluate turns room condition f >>= _) (m.note _))
    rw [left_bind_of_ok tested, if_pos truthy]
    exact .refl _
  | @elseBranch room condition thenBranch elseBranch f m v m₁ tested falsy =>
    change Lasts _ (Execution.left (evaluate turns room condition f >>= _) (m.note _))
    rw [left_bind_of_ok tested, if_neg (by simp [falsy])]
    exact .refl _
  | loop => exact .refl _
  | declared => exact lasts_left_bind fun _ _ _ => .pure _
  | returned => exact lasts_left_bind fun _ _ _ => .pure _

namespace KeepsAll

/-- A call that makes another one behind what keeps the keywords. -/
theorem of_first (keeps : KeepsAll h turns room) {task task' : Task}
    (follows : Follows h turns ⟨room + 1, task, m⟩)
    (starts : Starts turns ⟨room + 1, task, m⟩ ⟨room, task', m'⟩) (first : Lasts m m') :
    Lasts m (Moment.left turns ⟨room + 1, task, m⟩) := by
  have second := keeps (follows.below starts)
  exact (first.trans second).trans
    (follows.lasts_left_of starts fun _ same => Nat.succ.inj same ▸ keeps)

/-- An expression keeps the bindings of the keywords.  If it calls for a part to be evaluated first,
then what it leaves behind is what it does after that call. -/
theorem evaluate_succ (keeps : KeepsAll h turns room) {e : Expr}
    (follows : Follows h turns ⟨room + 1, .evaluate e f, m⟩) :
    Keeps (evaluate turns (room + 1) e f) m := by
  cases e with
  | literal value => exact .pure _
  | grouping inner => exact keeps.of_first follows .grouping (.refl m)
  | var name hops => exact keeps_lookUp f name hops
  | assign name value hops => exact keeps.of_first follows .assigned (.refl m)
  | unary operator right => exact keeps.of_first follows .operand (.refl m)
  | binary left operator right => exact keeps.of_first follows .left (.refl m)
  | logical left operator right => exact keeps.of_first follows .logicalLeft (.refl m)
  | call callee paren arguments => exact keeps.of_first follows .callee (.refl m)
  | getField object name => exact keeps.of_first follows .object (.refl m)
  | setField object name value => exact keeps.of_first follows .fieldObject (.refl m)
  | this keyword hops => exact keeps_lookUp f keyword hops
  | super keyword method hops => exact keeps_superMethod f method hops
  | misfit what => exact .throw _

/-- A call keeps the bindings of the keywords: it invokes what is called, or is refused.  It is
refused if this cannot be called, or not with so many arguments, and nothing is done then. -/
theorem call_succ (keeps : KeepsAll h turns room) {callee : Value} {arguments : List Value}
    {paren : Token} (follows : Follows h turns ⟨room + 1, .call callee arguments paren, m⟩) :
    Keeps (call turns (room + 1) callee arguments paren) m := by
  by_cases fits : callee.arity? = some arguments.length
  · exact keeps.of_first follows (.invoked fits) (keeps_note _)
  · change Keeps (callWith _ callee arguments paren) m
    unfold callWith
    split
    · exact .throw _
    · next expected arity =>
      have other : ¬ arguments.length = expected :=
        fun same => fits (arity.trans (congrArg some same.symm))
      rw [if_neg other]
      exact .throw _

/-- What happens in the new frame of a function.  Its parameters are no keywords, its body is one
call of the evaluator with less room, and its outcome binds nothing. -/
theorem function (keeps : KeepsAll h turns room) {c : Closure} {arguments : List Value} {g : FrameId}
    (follows : Follows h turns ⟨room + 1, .invoke (.closure c) arguments, m⟩)
    (made : (newFrame c.frame).run m = .ok g m₁) :
    Keeps (do
      bindParams g c.decl.params arguments
      let completion ← runBlock turns room c.decl.body g
      outcomeOf c completion) m₁ := by
  have fits : ClosureFits h m.frames c := follows.good.1.1
  refine (keeps_bindParams g fits.plain_params arguments m₁).bind fun _ m₂ bound => ?_
  exact Keeps.bind (keeps (follows.below (.body made bound))) fun _ _ _ => keeps_outcomeOf _ _

/-- A call keeps the bindings of the keywords: a function binds parameters in a frame of its own,
and a class binds `this` in a new frame before the initializer runs. -/
theorem invoke_succ (keeps : KeepsAll h turns room) {callee : Value} {arguments : List Value}
    (follows : Follows h turns ⟨room + 1, .invoke callee arguments, m⟩) :
    Keeps (invoke turns (room + 1) callee arguments) m := by
  cases callee with
  | closure c =>
    exact (keeps_newFrame c.frame).bind fun g m₁ made => keeps.function follows made
  | cls c =>
    refine (keeps_newInstance c).bind fun i m₁ made => ?_
    split
    · next init found =>
      refine (keeps_bindThis init (.object i)).bind fun bound m₂ ran => ?_
      exact Keeps.bind (keeps (follows.below (.initializer made found ran))) fun _ _ _ => .pure _
    · exact .pure _
  | native n =>
    cases n
    exact Lasts.of_frames rfl (Nat.le_refl _)
  | _ => exact .pure _

theorem declareClass_succ (keeps : KeepsAll h turns room) {name : Token}
    {superclass : Option Superclass} {methods : List FunDecl}
    (follows : Follows h turns ⟨room + 1, .declareClass name superclass methods f, m⟩) :
    Keeps (declareClass turns (room + 1) name superclass methods f) m := by
  have good : StmtAt h m.frames f (.classDecl name superclass methods) := follows.good
  cases superclass with
  | none => exact keeps_makeClass f good.plain_class none methods
  | some parent => exact keeps.of_first follows .superclass (.refl m)

/-- A statement keeps the bindings of the keywords, since no name that it declares is one of
them. -/
theorem execute_succ (keeps : KeepsAll h turns room) {s : Stmt}
    (follows : Follows h turns ⟨room + 1, .execute s f, m⟩) :
    Keeps (execute turns (room + 1) s f) m := by
  have good : StmtAt h m.frames f s := follows.good
  have noted : Lasts m (m.note (.executed s.found)) := keeps_note _
  cases s with
  | expr e => exact keeps.of_first follows .expression noted
  | print e => exact keeps.of_first follows .printed noted
  | varDecl name initializer =>
    cases initializer with
    | none =>
      refine (keeps_note _).bind fun _ _ _ => ?_
      refine (keeps_define good.plain_varDecl f .nil).bind fun _ _ _ => ?_
      exact (keeps_note _).bind fun _ _ _ => .pure _
    | some e => exact keeps.of_first follows .initial noted
  | block statements =>
    exact keeps.of_first follows (.block rfl) (noted.trans (keeps_newFrame f))
  | ifElse condition thenBranch elseBranch =>
    exact keeps.of_first follows .branchCondition noted
  | loop condition body => exact keeps.of_first follows .loop noted
  | funDecl decl =>
    refine (keeps_note _).bind fun _ _ _ => (keeps_newClosure _ _ _).bind fun c _ _ => ?_
    refine (keeps_define good.plain_function f (.closure c)).bind fun _ _ _ => ?_
    exact (keeps_note _).bind fun _ _ _ => .pure _
  | classDecl name superclass methods => exact keeps.of_first follows .declared noted
  | ret keyword e =>
    cases e with
    | none => exact (keeps_note _).bind fun _ _ _ => .pure _
    | some e => exact keeps.of_first follows .returned noted
  | brk | cont => exact (keeps_note _).bind fun _ _ _ => .pure _
  | bare | misfit => exact (keeps_note _).bind fun _ _ _ => .throw _

/-- One level more.  Every task is split into the calls that it makes with less room, to which the
induction applies, and into operations, of which none binds a keyword where it is bound already. -/
theorem succ (keeps : KeepsAll h turns room) : KeepsAll h turns (room + 1) := by
  intro task m follows
  cases task with
  | evaluate => exact keeps.evaluate_succ follows
  | call => exact keeps.call_succ follows
  | invoke => exact keeps.invoke_succ follows
  | runBlock ss => exact keeps.inOrder follows ss [] rfl rfl
  | runLoop => exact keeps.repeatWhile follows (Nat.zero_add turns) (.none m)
  | declareClass => exact keeps.declareClass_succ follows
  | execute => exact keeps.execute_succ follows

theorem zero : KeepsAll h turns 0 := by
  intro task m _
  cases task <;> exact Lasts.refl m

theorem all (h : History) (turns : Nat) : ∀ room, KeepsAll h turns room
  | 0 => zero
  | room + 1 => (all h turns room).succ

end KeepsAll

namespace Follows

/-- Keywords last through a call. -/
theorem lasts {M : Moment} (follows : Follows h turns M) : Lasts M.machine (M.left turns) :=
  KeepsAll.all h turns M.room follows

/-- What a call leaves behind lasts until all calls around it are over. -/
theorem lasts_left {M M' : Moment} (follows : Follows h turns M) (reaches : Reaches turns M M') :
    Lasts (M'.left turns) (M.left turns) := by
  induction reaches with
  | refl => exact .refl _
  | tail reaches starts ih =>
    exact ((follows.reaches reaches).lasts_left_of starts fun room _ => .all h turns room).trans ih

end Follows

/-! ### Calls that bind keywords -/

/-- A call of the evaluator fetches a method and binds it to a receiver, in a frame that it makes: by
making an instance, by reading a property, or by `super`. -/
inductive Fetches (turns : Nat) : Moment → Closure → FrameId → Value → Prop
  | construction {room c arguments m init} (found : c.initializer? = some init) :
      Fetches turns ⟨room + 1, .invoke (.cls c) arguments, m⟩ init m.frames.size
        (.object ⟨m.fields.size, c⟩)
  | property {room object name f m i m' method}
      (ran : (evaluate turns room object f).run m = .ok (.object i) m')
      (absent : (m'.fieldsOf i).get? name.lexeme = none)
      (found : i.ofClass.findMethod? name.lexeme = some method) :
      Fetches turns ⟨room + 1, .evaluate (.getField object name) f, m⟩ method m'.frames.size
        (.object i)
  | super {room keyword name f m c hops receiver method}
      (parent : m.frames.getAt f (hops : Nat) "super" = .ok (.cls c))
      (this : m.frames.getAt f ((hops : Int) - 1) "this" = .ok receiver)
      (found : c.findMethod? name.lexeme = some method) :
      Fetches turns ⟨room + 1, .evaluate (.super keyword name (some hops)) f, m⟩ method
        m.frames.size receiver

/-- A call of the evaluator declares a class whose superclass, evaluated there and then, is a given
class, and makes the frame for its methods. -/
inductive Inherits (turns : Nat) : Moment → Token → List FunDecl → FrameId → Class → Prop
  | intro {room name parent methods f m c m'}
      (ran : (evaluate turns room parent.value f).run m = .ok (.cls c) m') :
      Inherits turns ⟨room + 1, .declareClass name (some parent) methods f, m⟩ name methods
        m'.frames.size c

/-- A property that is no field is a method of the class, bound to the instance.  The binding makes
one frame, and leaves all others alone. -/
theorem run_propertyOf {i : Instance} {name : Token} {method : Closure}
    (absent : (m.fieldsOf i).get? name.lexeme = none)
    (found : i.ofClass.findMethod? name.lexeme = some method) :
    (propertyOf (.object i) name).run m =
      .ok (.closure (bound method m)) (boundTo method (.object i) m) := by
  change (getProperty i name).run m = _
  rw [getProperty, EStateM.run_bind, EStateM.run_get]
  dsimp only
  rw [absent]
  dsimp only
  rw [found]
  rfl

theorem run_getAt_of_ok {hops : Int} {name : String} {v : Value}
    (got : m.frames.getAt f hops name = .ok v) : (getAt f hops name).run m = .ok v m := by
  change (orFault (m.frames.getAt f hops name)).run m = _
  rw [got]
  rfl

/-- `super` looks a method up in the class it stands for, and binds it to what `this` stands for.
If the class has no such method, it is an error of the program and no fault. -/
theorem run_superMethod {name : Token} {c : Class} {hops : Nat} {receiver : Value}
    (parent : m.frames.getAt f (hops : Nat) "super" = .ok (.cls c))
    (this : m.frames.getAt f ((hops : Int) - 1) "this" = .ok receiver) :
    (superMethod f name (some hops)).run m =
      match c.findMethod? name.lexeme with
      | some method => .ok (.closure (bound method m)) (boundTo method receiver m)
      | none => .error (.error ⟨.undefinedProperty name.lexeme, name.line⟩) m := by
  unfold superMethod
  rw [EStateM.run_bind, run_getAt_of_ok parent]
  dsimp only
  rw [EStateM.run_bind, run_getAt_of_ok this]
  dsimp only
  cases c.findMethod? name.lexeme <;> rfl

/-- A method that was fetched is bound to its receiver when the call is over that fetched it.
However it was fetched, `this` is bound in a new frame, and for a construction the initializer is
called after that; what is called keeps the binding. -/
theorem Fetches.holds {M : Moment} {g : FrameId} {receiver : Value} {method : Closure}
    (fetches : Fetches turns M method g receiver) (follows : Follows h turns M) :
    Holds (M.left turns).frames g (some receiver) none := by
  cases fetches with
  | @construction room c arguments m _ found =>
    -- the initializer is bound first and then called
    have starts : Starts turns ⟨room + 1, .invoke (.cls c) arguments, m⟩ _ :=
      .initializer rfl found rfl
    have bound : Holds (boundTo method (.object ⟨m.fields.size, c⟩)
        { m with fields := m.fields.push {} }).frames m.frames.size _ none := holds_boundTo _ _
    exact (bound.lasts (follows.below starts).lasts).lasts (follows.lasts_left (.single starts))
  | @property room object name f m i m' _ ran absent found =>
    change Holds (left (evaluate turns room object f >>= _) m).frames _ _ _
    rw [left_bind_of_ok ran, left_of_ok (run_propertyOf absent found)]
    exact holds_boundTo _ _
  | @super room keyword name f m c hops _ _ parent this found =>
    have ran : (superMethod f name (some hops)).run m = _ := run_superMethod parent this
    rw [found] at ran
    change Holds (left (superMethod f name (some hops)) m).frames _ _ _
    rw [left_of_ok ran]
    exact holds_boundTo _ _

theorem holds_methodFrame (f : FrameId) (parent : Class) (m : Machine) :
    ∃ m', (methodFrame f (some parent)).run m = .ok m.frames.size m' ∧
      Holds m'.frames m.frames.size none (some (.cls parent)) := by
  refine ⟨_, rfl, ?_, Frames.local?_made_of_ne _ _ (by decide) _, Frames.local?_made_self _ _ _ _⟩
  change m.frames.size < Frames.size (Frames.define _ _ _ _)
  simp

/-- A superclass is what `super` stands for when the declaration is over.  It was evaluated before,
and the frame it is bound in was made for it; the methods that are made there bind nothing. -/
theorem Inherits.holds {M : Moment} {name : Token} {methods : List FunDecl} {g : FrameId} {c : Class}
    (inherits : Inherits turns M name methods g c) (follows : Follows h turns M) :
    Holds (M.left turns).frames g none (some (.cls c)) := by
  obtain @⟨room, name, parent, methods, f, m, c, m', ran⟩ := inherits
  have good : StmtAt h m.frames f (.classDecl name (some parent) methods) := follows.good
  let named : Machine := { m' with frames := m'.frames.define f name.lexeme .nil }
  have size : named.frames.size = m'.frames.size := Frames.size_define _ _ _ _
  obtain ⟨m₁, framed, held⟩ := holds_methodFrame f c named
  change Holds (left (evaluate turns room parent.value f >>= _) m).frames _ _ _
  rw [left_bind_of_ok ran]
  change Holds (left (methodFrame f (some c) >>= finishClass f name (some c) methods) named).frames
    _ _ _
  rw [left_bind_of_ok framed, ← size]
  exact held.lasts (keeps_finishClass f good.plain_class (some c) methods _)

theorem holds_make (frames : Frames Value) (enclosing : Option FrameId) :
    Holds (frames.make enclosing) frames.size none none := by
  refine ⟨by simp, ?_, ?_⟩ <;> rw [Frames.local?_make, Frames.local?_size]

/-- The site for which a frame is made decides what it holds: `this` for a method, `super` for a
class, and no keyword for a block or the body of a function. -/
theorem Makes.keyword {M : Moment} {site : Site} {g : FrameId} (makes : Makes turns M site g)
    (follows : Follows h turns M) :
    (∃ method receiver, site = .receiver method.decl ∧ Fetches turns M method g receiver) ∨
    (∃ name methods c, site = .parent name methods ∧ Inherits turns M name methods g c) ∨
    Holds (M.left turns).frames g none none := by
  cases makes with
  | @block room statements f m =>
    have starts : Starts turns ⟨room + 1, .execute (.block statements) f, m⟩ _ := .block rfl
    have lasts := (follows.below starts).lasts.trans (follows.lasts_left (.single starts))
    exact .inr (.inr ((holds_make m.frames (some f)).lasts lasts))
  | @body room c arguments m =>
    have lasts := (KeepsAll.all h turns room).function follows rfl
    exact .inr (.inr ((holds_make m.frames (some c.frame)).lasts lasts))
  | initializer found => exact .inl ⟨_, _, rfl, .construction found⟩
  | property ran absent found => exact .inl ⟨_, _, rfl, .property ran absent found⟩
  | super parent this found => exact .inl ⟨_, _, rfl, .super parent this found⟩
  | parent ran => exact .inr (.inl ⟨_, _, _, rfl, .intro ran⟩)

/-! ### Calls that return -/

/-- A call of the evaluator calls a value and returns another one. -/
inductive Returns (turns : Nat) : Moment → Value → Value → Machine → Prop
  | call {room callee arguments paren m v m'}
      (ran : (call turns room callee arguments paren).run m = .ok v m') :
      Returns turns ⟨room, .call callee arguments paren, m⟩ callee v m'
  | invoke {room callee arguments m v m'}
      (ran : (invoke turns room callee arguments).run m = .ok v m') :
      Returns turns ⟨room, .invoke callee arguments, m⟩ callee v m'

/-- A lack of room that is caught becomes an error, so what is returned is what was returned. -/
theorem run_of_catchOverflow {line : Int} {body : Eval Value} {v : Value}
    (ran : (catchOverflow line body).run m = .ok v m') : body.run m = .ok v m' := by
  change EStateM.tryCatch body _ m = _ at ran
  unfold EStateM.tryCatch at ran
  cases result : body m with
  | ok w m₁ =>
    rw [result] at ran
    cases ran
    exact result
  | error abort m₁ =>
    rw [result] at ran
    cases abort <;> cases ran

/-- What a call returns is what the body of the function or the making of the instance returned.
The call itself only checks the number of the arguments and watches the depth of the calls. -/
theorem Returns.invoked {M : Moment} {callee v : Value} (returns : Returns turns M callee v m') :
    ∃ room arguments m, Reaches turns M ⟨room, .invoke callee arguments, m⟩ ∧
      (Execution.invoke turns room callee arguments).run m = .ok v m' ∧
      m.fields = M.machine.fields := by
  cases returns with
  | invoke ran => exact ⟨_, _, _, .refl, ran, rfl⟩
  | @call room _ arguments paren m _ _ ran =>
    cases room with
    | zero => cases ran
    | succ room =>
      change (callWith _ callee arguments paren).run m = _ at ran
      unfold callWith at ran
      split at ran
      · cases ran
      · next expected arity =>
        split at ran
        · next same =>
          subst same
          exact ⟨room, arguments, _, .single (.invoked arity), run_of_catchOverflow ran, rfl⟩
        · cases ran

/-- An initializer returns what `this` stands for in its frame.  Whatever its body completed with,
the outcome is read from the frame that the method was bound in, one frame outward from that of the
parameters. -/
theorem local?_of_initializer {c : Closure} {arguments : List Value} {v : Value}
    (initializer : c.isInitializer = true)
    (ran : (invoke turns room (.closure c) arguments).run m = .ok v m') :
    m'.frames.local? c.frame "this" = some v := by
  cases room with
  | zero => cases ran
  | succ room =>
    obtain ⟨g, m₁, made, ran⟩ := run_bind_ok.mp ran
    obtain ⟨_, m₂, bound, ran⟩ := run_bind_ok.mp ran
    obtain ⟨completion, m₃, body, ran⟩ := run_bind_ok.mp ran
    unfold outcomeOf at ran
    rw [if_pos initializer] at ran
    cases held : m₃.frames.local? c.frame "this" with
    | some w =>
      cases ran.symm.trans (run_getAt_of_held (d := 0) rfl held)
      exact held
    | none =>
      change (orFault (m₃.frames.getAt c.frame ((0 : Nat) : Int) "this")).run m₃ = _ at ran
      rw [Frames.getAt, holderAt_of_missing rfl held] at ran
      cases ran

/-- A class that is called returns a new instance of itself.  The instance gets the next number
before the initializer runs, and the result of the initializer is dropped. -/
theorem new_of_class {c : Class} {arguments : List Value} {v : Value}
    (follows : Follows h turns ⟨room, .invoke (.cls c) arguments, m⟩)
    (ran : (invoke turns room (.cls c) arguments).run m = .ok v m') :
    v = .object ⟨m.fields.size, c⟩ ∧ m.fields.size < m'.fields.size := by
  cases room with
  | zero => cases ran
  | succ room =>
    obtain ⟨i, m₁, made, ran⟩ := run_bind_ok.mp ran
    have grown : m.fields.size < m₁.fields.size := by
      cases made
      change m.fields.size < (m.fields.push {}).size
      rw [Array.size_push]
      exact Nat.lt_succ_self _
    split at ran
    · next init found =>
      obtain ⟨bound, m₂, bind, ran⟩ := run_bind_ok.mp ran
      obtain ⟨_, m₃, body, ran⟩ := run_bind_ok.mp ran
      have below := follows.below (.initializer made found bind)
      have first : Lasts m₁ m₂ := (keeps_bindThis init (.object i)).of_ok bind
      have second : Lasts m₂ m₃ := Keeps.of_ok below.lasts body
      cases ran
      cases made
      exact ⟨rfl, Nat.lt_of_lt_of_le grown (first.trans second).fields⟩
    · cases ran
      cases made
      exact ⟨rfl, grown⟩

end Execution
end Arbor
