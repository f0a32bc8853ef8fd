import Arbor.Proofs.Grammar.LocalStatements

/-!
# Parsers step by step

A parser is a function on states, and its run says where it starts and where it ends, not where it
passes.  A *plan* for a parser tells that too: it puts the parser together from single steps, each of
which looks at the state, takes a token, adds a report, drops tokens up to the next boundary, or
stops.  The type of a plan is the parser it is a plan for, so there is nothing to show about what it
computes.  Its trace lists what happens on the way.

Two kinds of event are not steps.  A plan marks the calls of the rule for declarations, and it marks
where a repetition is given up because its fuel is spent and not because it has come to its end.

## Main definitions

* `Grammar.Plan`, `Grammar.Plan.trace`: how a parser is put together, and what it does on its way.
* `Grammar.Path`: events that lead on from one state to another.
* `Grammar.Steady`: a plan that gives up no repetition and calls for declarations only where a token
  is left.

## Main statements

* `Grammar.Plan.path`: whatever a parser does, it moves on.
-/

namespace Arbor
namespace Grammar

open Stateful

/-! ### Plans -/

/-- How a parser is put together from single steps. -/
inductive Plan : {α : Type} → Parser α → Type 1
  | pure {α : Type} (a : α) : Plan (Pure.pure a)
  /-- A repetition is given up. -/
  | spent {α : Type} (a : α) : Plan (Pure.pure a)
  | look {α : Type} (found : State → α) : Plan (do return found (← get))
  | take (passes : Token.Kind → Bool) : Plan (acceptIf? passes)
  | report (t : Token) (error : GrammarError) : Plan (Grammar.report t error)
  | stop {α : Type} (why : Stop) : Plan (throw why : Parser α)
  | recover : Plan Grammar.recover
  | map {α β : Type} {x : Parser α} (g : α → β) (inner : Plan x) : Plan (g <$> x)
  | bind {α β : Type} {x : Parser α} {k : α → Parser β} (first : Plan x) (next : ∀ a, Plan (k a)) :
      Plan (x >>= k)
  | branch {α : Type} {x y : Parser α} (c : Prop) (decidable : Decidable c) (yes : Plan x)
      (no : Plan y) : Plan (if c then x else y)
  | guarded {α : Type} {x : Parser α} {h : Stop → Parser α} (body : Plan x)
      (handler : ∀ why, Plan (h why)) : Plan (tryCatch x h)
  /-- The rule for declarations is called. -/
  | declare (room : Nat) (body : Plan (declaration room)) : Plan (declaration room)

/-- What happens while a parser runs. -/
inductive Event where
  /-- No token was taken. -/
  | paused (s : State)
  /-- A token was taken, and stands right in front of what remains. -/
  | took (t : Token) (s : State)
  /-- Tokens were dropped. -/
  | recovered (s s' : State)
  /-- The rule for declarations was called. -/
  | called (room : Nat) (s : State)
  /-- A repetition was given up. -/
  | spent (s : State)

/-- The state behind an event. -/
def Event.state : Event → State
  | paused s | took _ s | recovered _ s | called _ s | spent s => s

/-- What happens, in order, when a parser runs by its plan. -/
def Plan.trace : {α : Type} → {x : Parser α} → Plan x → State → List Event
  | _, _, .pure _, _ => []
  | _, _, .spent _, s => [.spent s]
  | _, _, .look _, s => [.paused s]
  | _, _, .take passes, s =>
    match s.rest with
    | [] => [.paused s]
    | t :: rest => if passes t.kind then [.took t (s.facing rest)] else [.paused s]
  | _, _, .report t error, s =>
    [.paused { s with reports := s.reports.push (.grammar t error) }]
  | _, _, .stop _, s => [.paused s]
  | _, _, .recover, s => [.recovered s (s.facing (resume s.rest))]
  | _, _, .map _ inner, s => inner.trace s
  | _, _, @Plan.bind _ _ x _ first next, s =>
    first.trace s ++
      match x.run s with
      | .ok a s₁ => (next a).trace s₁
      | .error _ _ => []
  | _, _, .branch _ decidable yes no, s =>
    match decidable with
    | .isTrue _ => yes.trace s
    | .isFalse _ => no.trace s
  | _, _, @Plan.guarded _ x _ body handler, s =>
    body.trace s ++
      match x.run s with
      | .ok _ _ => []
      | .error why s₁ => (handler why).trace s₁
  | _, _, .declare room body, s => .called room s :: body.trace s

/-! ### Moving on -/

/-- An event that leads on from a state. -/
def Event.Follows (s : State) : Event → Prop
  | paused s' | called _ s' | spent s' => Onward s s'
  | took t s' => t :: s'.rest <:+ s.rest ∧ Onward s s'
  | recovered s₁ s' => Onward s s₁ ∧ Onward s₁ s'

namespace Event.Follows

variable {e : Event} {s s' : State}

/-- An event that follows a state does not lead back. -/
theorem onward (follows : e.Follows s) : Onward s e.state := by
  cases e with
  | paused | called | spent => exact follows
  | took => exact follows.2
  | recovered => exact follows.1.trans follows.2

/-- What follows a later state follows an earlier one. -/
theorem before (follows : e.Follows s') (onward : Onward s s') : e.Follows s := by
  cases e with
  | paused | called | spent => exact onward.trans follows
  | took => exact ⟨follows.1.trans onward.suffix, onward.trans follows.2⟩
  | recovered => exact ⟨onward.trans follows.1, follows.2⟩

end Event.Follows

/-- Events that lead on from one state to another, each from where the one before it ended. -/
inductive Path : State → List Event → State → Prop
  | done {s s' : State} (onward : Onward s s') : Path s [] s'
  | step {s s' : State} {e : Event} {events : List Event} (follows : e.Follows s)
      (rest : Path e.state events s') : Path s (e :: events) s'

namespace Path

variable {s s₁ s' : State} {e : Event} {events more : List Event}

/-- One event is a path to the state it ends in. -/
theorem single (follows : e.Follows s) : Path s [e] e.state :=
  .step follows (.done (.refl _))

/-- A path does not lead back. -/
theorem onward (path : Path s events s') : Onward s s' := by
  induction path with
  | done onward => exact onward
  | step follows _ ih => exact follows.onward.trans ih

/-- A path may be begun from earlier on. -/
theorem before (path : Path s₁ events s') (onward : Onward s s₁) : Path s events s' := by
  cases path with
  | done further => exact .done (onward.trans further)
  | step follows rest => exact .step (follows.before onward) rest

/-- Paths are put one behind the other. -/
theorem append (first : Path s events s₁) (second : Path s₁ more s') :
    Path s (events ++ more) s' := by
  induction first with
  | done onward => exact second.before onward
  | step follows _ ih => exact .step follows (ih second)

/-- Every event on the way follows the start, and the end is ahead of it. -/
theorem follows_of_mem (path : Path s events s') (mem : e ∈ events) :
    e.Follows s ∧ Onward e.state s' := by
  induction path with
  | done => cases mem
  | step follows rest ih =>
    rcases List.mem_cons.mp mem with rfl | mem
    · exact ⟨follows, rest.onward⟩
    · exact (ih mem).imp_left (·.before follows.onward)

/-- Nowhere on the way does reading turn back.  Each state is onward of all those before it, not
only of the last one, as being onward composes. -/
theorem pairwise (path : Path s events s') :
    (s :: events.map Event.state ++ [s']).Pairwise Onward := by
  induction path with
  | done onward => simpa using onward
  | @step s s' e events follows rest ih =>
    refine List.pairwise_cons.mpr ⟨fun s₁ mem => ?_, ih⟩
    have ahead := (List.pairwise_cons.mp ih).1
    rcases List.mem_cons.mp mem with rfl | mem
    · exact follows.onward
    · exact follows.onward.trans (ahead s₁ mem)

end Path

/-- The state a parser ends in, whether it returns or stops. -/
def behind {α : Type} (x : Parser α) (s : State) : State :=
  match x.run s with
  | .ok _ s' => s'
  | .error _ s' => s'

section Behind

variable {α β : Type} {x : Parser α} {s s₁ : State}

/-- The state behind a parser that returned. -/
theorem behind_of_ok {a : α} (ran : x.run s = .ok a s₁) : behind x s = s₁ := by
  unfold behind
  rw [ran]

/-- The state behind one that stopped, which keeps what was taken and reported. -/
theorem behind_of_error {why : Stop} (ran : x.run s = .error why s₁) : behind x s = s₁ := by
  unfold behind
  rw [ran]

/-- The state behind two parsers in sequence is the one behind the second, if it comes to that. -/
theorem behind_bind (k : α → Parser β) : behind (x >>= k) s =
    match x.run s with
    | .ok a s₁ => behind (k a) s₁
    | .error _ s₁ => s₁ := by
  unfold behind
  rw [EStateM.run_bind]
  cases x.run s <;> rfl

/-- What is done with a result does not move the parser. -/
theorem behind_map (g : α → β) : behind (g <$> x) s = behind x s := by
  rw [map_eq_pure_bind, behind_bind]
  unfold behind
  cases x.run s <;> rfl

/-- The state behind a parser that is recovered from is that behind the recovery, which begins where
the parser has stopped. -/
theorem behind_tryCatch (h : Stop → Parser α) : behind (tryCatch x h) s =
    match x.run s with
    | .ok _ s₁ => s₁
    | .error why s₁ => behind (h why) s₁ := by
  unfold behind
  change (match EStateM.tryCatch x h s with
    | .ok _ s' => s'
    | .error _ s' => s') = _
  unfold EStateM.tryCatch
  change _ = match x s with
    | .ok _ s₁ => s₁
    | .error why s₁ => _
  cases x s <;> rfl

end Behind

/-- Looking for a token takes it or pauses.  At the end of the tokens there is none to take, so
reading pauses there as well. -/
theorem path_take (passes : Token.Kind → Bool) (s : State) :
    Path s ((Plan.take passes).trace s) (behind (acceptIf? passes) s) := by
  change Path s (match s.rest with
    | [] => [.paused s]
    | t :: rest => if passes t.kind then [.took t (s.facing rest)] else [.paused s])
    (match s.rest with
      | [] => (none, s)
      | t :: rest => if passes t.kind then (some t, s.facing rest) else (none, s)).2
  split
  · exact .single (.refl s)
  · next t rest tokens =>
    have shorter : Onward s (s.facing rest) := by
      refine ⟨rfl, rfl, ?_, Nat.le_refl _⟩
      rw [tokens]
      exact List.suffix_cons t rest
    split
    · exact .single ⟨by rw [tokens]; exact List.suffix_refl _, shorter⟩
    · exact .single (.refl s)

/-- **Whatever a parser does, it moves on.** The induction is on the plan: each primitive makes one
step, which goes forward or stays, and the steps of the parts follow each other. -/
theorem Plan.path {α : Type} {x : Parser α} (plan : Plan x) :
    ∀ s, Path s (plan.trace s) (behind x s) := by
  induction plan with
  | pure a => exact fun s => .done (.refl s)
  | spent a | look found | stop why => exact fun s => .single (.refl s)
  | take passes => exact path_take passes
  | report t error =>
    intro s
    refine .single ⟨rfl, rfl, List.suffix_refl _, ?_⟩
    exact Nat.le_of_lt (Nat.lt_of_lt_of_eq (Nat.lt_succ_self _) (Array.size_push _).symm)
  | recover => exact fun s => .single ⟨.refl s, rfl, rfl, resume_suffix s.rest, Nat.le_refl _⟩
  | map g inner ih =>
    intro s
    rw [behind_map]
    exact ih s
  | @bind _ _ x k first next ih ih' =>
    intro s
    have start := ih s
    rw [behind_bind, trace]
    cases ran : x.run s with
    | ok a s₁ =>
      rw [behind_of_ok ran] at start
      exact start.append (ih' a s₁)
    | error why s₁ =>
      rw [behind_of_error ran] at start
      exact start.append (.done (.refl s₁))
  | branch c decidable yes no ih ih' =>
    intro s
    cases decidable with
    | isTrue holds => exact ih s
    | isFalse fails => exact ih' s
  | @guarded _ x h body handler ih ih' =>
    intro s
    have start := ih s
    rw [behind_tryCatch, trace]
    cases ran : x.run s with
    | ok a s₁ =>
      rw [behind_of_ok ran] at start
      exact start.append (.done (.refl s₁))
    | error why s₁ =>
      rw [behind_of_error ran] at start
      exact start.append (ih' why s₁)
  | declare room body ih => exact fun s => .step (.refl s) (ih s)

/-- A parser with a plan moves on. -/
theorem Plan.onward_of_ok {α : Type} {x : Parser α} (plan : Plan x) {s s₁ : State} {a : α}
    (ran : x.run s = .ok a s₁) : Onward s s₁ := by
  have onward := (plan.path s).onward
  rwa [behind_of_ok ran] at onward

/-- A parser that stopped has moved on all the same. -/
theorem Plan.onward_of_error {α : Type} {x : Parser α} (plan : Plan x) {s s₁ : State} {why : Stop}
    (ran : x.run s = .error why s₁) : Onward s s₁ := by
  have onward := (plan.path s).onward
  rwa [behind_of_error ran] at onward

/-! ### Plans that neither give up nor call in vain -/

/-- No repetition is given up, and declarations are called for only in front of a token. -/
def Event.Safe : Event → Prop
  | paused _ | took _ _ | recovered _ _ => True
  | called _ s => s.rest ≠ []
  | spent _ => False

/-- Nothing but safe events happen from a state on. -/
def Plan.SafeAt {α : Type} {x : Parser α} (plan : Plan x) (s : State) : Prop :=
  ∀ e ∈ plan.trace s, e.Safe

namespace Plan.SafeAt

variable {α β : Type} {x y : Parser α} {s : State}

/-- A plan of one safe event is safe. -/
theorem single {plan : Plan x} {e : Event} (one : plan.trace s = [e]) (safe : e.Safe) :
    plan.SafeAt s := by
  intro e' mem
  rw [one] at mem
  rw [List.mem_singleton.mp mem]
  exact safe

theorem pure (a : α) : (Plan.pure a).SafeAt s :=
  fun _ mem => nomatch mem

/-- Taking a token is safe, also where there is none to take.  In each of the three cases the plan
has one event, and it is where reading has come to. -/
theorem take (passes : Token.Kind → Bool) : (Plan.take passes).SafeAt s := by
  cases tokens : s.rest with
  | nil =>
    refine .single (e := .paused s) ?_ trivial
    rw [trace, tokens]
  | cons t rest =>
    by_cases passed : passes t.kind = true
    · refine .single (e := .took t (s.facing rest)) ?_ trivial
      rw [trace, tokens]
      exact if_pos passed
    · refine .single (e := .paused s) ?_ trivial
      rw [trace, tokens]
      exact if_neg passed

/-- A plan in two parts is safe if both are, the second wherever the first may end.  If the first
one stops early, then only its own events happen. -/
theorem bind {k : α → Parser β} {first : Plan x} {next : ∀ a, Plan (k a)} (here : first.SafeAt s)
    (later : ∀ a s₁, x.run s = .ok a s₁ → Onward s s₁ → (next a).SafeAt s₁) :
    (Plan.bind first next).SafeAt s := by
  intro e mem
  rw [trace, List.mem_append] at mem
  rcases mem with mem | mem
  · exact here e mem
  · cases ran : x.run s with
    | ok a s₁ =>
      rw [ran] at mem
      exact later a s₁ ran (first.onward_of_ok ran) e mem
    | error why s₁ =>
      rw [ran] at mem
      cases mem

/-- A part that only looks leaves the state as it is. -/
theorem looking {k : α → Parser β} {found : State → α} {next : ∀ a, Plan (k a)}
    (later : (next (found s)).SafeAt s) : (Plan.bind (.look found) next).SafeAt s :=
  .bind (.single (e := .paused s) rfl trivial) fun _ _ ran _ => by
    cases ran
    exact later

/-- A branch is safe if the way that is taken is. -/
theorem branch {c : Prop} {decidable : Decidable c} {yes : Plan x} {no : Plan y}
    (holds : c → yes.SafeAt s) (fails : ¬ c → no.SafeAt s) :
    (Plan.branch c decidable yes no).SafeAt s := by
  cases decidable with
  | isTrue is => exact holds is
  | isFalse other => exact fails other

/-- A guarded plan is safe if its body is, and its handler wherever the body may stop.  If the body
does not stop, the handler is not run. -/
theorem guarded {h : Stop → Parser α} {body : Plan x} {handler : ∀ why, Plan (h why)}
    (here : body.SafeAt s)
    (later : ∀ why s₁, x.run s = .error why s₁ → Onward s s₁ → (handler why).SafeAt s₁) :
    (Plan.guarded body handler).SafeAt s := by
  intro e mem
  rw [trace, List.mem_append] at mem
  rcases mem with mem | mem
  · exact here e mem
  · cases ran : x.run s with
    | ok a s₁ =>
      rw [ran] at mem
      cases mem
    | error why s₁ =>
      rw [ran] at mem
      exact later why s₁ ran (body.onward_of_error ran) e mem

/-- Calling for a declaration is safe where a token is left. -/
theorem declare {room : Nat} {body : Plan (declaration room)} (tokens : s.rest ≠ [])
    (here : body.SafeAt s) : (Plan.declare room body).SafeAt s := by
  intro e mem
  rcases List.mem_cons.mp mem with rfl | mem
  · exact tokens
  · exact here e mem

end Plan.SafeAt

/-- Where reading goes on: behind it the text ends, and there was a token to begin with. -/
structure Started (s : State) : Prop where
  ready : Ready s
  inhabited : 0 < s.bound

/-- A parser that has started stays so: the bound of its loops lasts, and the tokens get fewer. -/
theorem Started.onward {s s' : State} (started : Started s) (onward : Onward s s') :
    Started s' where
  ready := onward.ready started.ready
  inhabited := by
    rw [onward.bound]
    exact started.inhabited

theorem Started.fits {s : State} (started : Started s) :
    Context.Fits ⟨id, #[], [], s.ending, s.bound⟩ s where
  ready := started.ready
  inhabited := started.inhabited
  covers := started.ready.fits
  inhabited' := started.inhabited

/-- A parser takes a token whenever it returns. -/
def Takes {α : Type} (x : Parser α) : Prop :=
  ∀ s a s', Started s → x.run s = .ok a s' → s'.rest.length < s.rest.length

/-- A parser that takes a token in every context takes one alone. -/
theorem takes_of_local {α : Type} {x : Parser α}
    (everywhere : ∀ c, ∃ calm g, Local c calm True x x g) : Takes x := by
  intro s a s' started ran
  obtain ⟨calm, g, here⟩ := everywhere ⟨id, #[], [], s.ending, s.bound⟩
  exact ((here s started.fits).of_ok ran).2.1 trivial

/-- A plan that is safe wherever at least `n` tokens were taken before. -/
structure Steady (n : Nat) {α : Type} (x : Parser α) where
  plan : Plan x
  safe : ∀ s, Started s → s.rest.length + n ≤ s.bound → plan.SafeAt s

namespace Steady

variable {n : Nat} {α β : Type} {x : Parser α}

def weaken (steady : Steady 0 x) : Steady n x :=
  ⟨steady.plan, fun s started _ => steady.safe s started started.ready.fits⟩

def pure (a : α) : Steady n (Pure.pure a) :=
  ⟨.pure a, fun _ _ _ => .pure a⟩

def look (found : State → α) : Steady n (do return found (← get)) :=
  ⟨.look found, fun _ _ _ => .single rfl trivial⟩

def take (passes : Token.Kind → Bool) : Steady n (acceptIf? passes) :=
  ⟨.take passes, fun _ _ _ => .take passes⟩

def report (t : Token) (error : GrammarError) : Steady n (Grammar.report t error) :=
  ⟨.report t error, fun _ _ _ => .single rfl trivial⟩

def stop (why : Stop) : Steady n (throw why : Parser α) :=
  ⟨.stop why, fun _ _ _ => .single rfl trivial⟩

def recover : Steady n Grammar.recover :=
  ⟨.recover, fun _ _ _ => .single rfl trivial⟩

def map (g : α → β) (inner : Steady n x) : Steady n (g <$> x) :=
  ⟨.map g inner.plan, inner.safe⟩

def bind {k : α → Parser β} (first : Steady n x) (next : ∀ a, Steady n (k a)) :
    Steady n (x >>= k) where
  plan := .bind first.plan fun a => (next a).plan
  safe s started few := .bind (first.safe s started few) fun a s₁ _ onward => by
    refine (next a).safe s₁ (started.onward onward) ?_
    rw [onward.bound]
    exact Nat.le_trans (Nat.add_le_add_right onward.suffix.length_le n) few

/-- A parser behind another one that takes a token. -/
def behind {k : α → Parser β} (first : Steady 0 x) (takes : Takes x) (next : ∀ a, Steady 1 (k a)) :
    Steady n (x >>= k) where
  plan := .bind first.plan fun a => (next a).plan
  safe s started _ := .bind (first.safe s started started.ready.fits) fun a s₁ ran onward => by
    refine (next a).safe s₁ (started.onward onward) ?_
    rw [onward.bound]
    exact Nat.le_trans (takes s a s₁ started ran) started.ready.fits

def branch {y : Parser α} {c : Prop} {decidable : Decidable c} (yes : Steady n x) (no : Steady n y) :
    Steady n (if c then x else y) where
  plan := .branch c decidable yes.plan no.plan
  safe s started few := .branch (fun _ => yes.safe s started few) fun _ => no.safe s started few

end Steady

end Grammar
end Arbor
