import Arbor.Proofs.Stateful
import Arbor.Proofs.Grammar.Derivation
import Arbor.Proofs.Grammar.Unfolding

/-!
# Parsers that account for the tokens they take

A parser that reports nothing has met no error, because every error is reported.  `Explains` says
what such a parser took off the front of the tokens, and how what it returns is related to that.

Repetitions are bounded by the number of tokens.  A list in parentheses takes at least two tokens in
each round and a program at least one, so the bound is never what ends them.

## Main definitions

* `Grammar.Explains`: what a parser took, if it reported nothing.

## Main statements

* `Grammar.explains_listUpToParen`, `Grammar.explains_itemsUpToBrace`: the loops.
-/

namespace Arbor
namespace Grammar

open Stateful

/-! ### Judgement -/

/-- Where reading may start: the bound covers what remains, and behind it the text ends. -/
structure Ready (s : State) : Prop where
  fits : s.rest.length ≤ s.bound
  ending : s.ending.kind = .endOfText

/-- Reading has gone on: it took tokens and added reports. -/
structure Onward (s s' : State) : Prop where
  bound : s'.bound = s.bound
  ending : s'.ending = s.ending
  suffix : s'.rest <:+ s.rest
  reports : s.reports.size ≤ s'.reports.size

namespace Onward

variable {s s₁ s' : State}

theorem refl (s : State) : Onward s s :=
  ⟨rfl, rfl, List.suffix_refl _, Nat.le_refl _⟩

theorem trans (first : Onward s s₁) (second : Onward s₁ s') : Onward s s' where
  bound := second.bound.trans first.bound
  ending := second.ending.trans first.ending
  suffix := second.suffix.trans first.suffix
  reports := Nat.le_trans first.reports second.reports

theorem ready (onward : Onward s s') (ready : Ready s) : Ready s' := by
  obtain ⟨bound, ending, suffix, -⟩ := onward
  refine ⟨?_, ?_⟩
  · rw [bound]
    exact Nat.le_trans suffix.length_le ready.fits
  · rw [ending]
    exact ready.ending

end Onward

/-- How `x` reads on from `s`: if it returns without a report, `explained` holds of the tokens it
took, those that remain, and what it returns; if it stops at an error, it has reported it. -/
def ExplainsAt {α : Type} (s : State) (x : Parser α)
    (explained : List Token → List Token → α → Prop) : Prop :=
  Ensures x s
    (fun a s' => Onward s s' ∧ (s'.reports.size = s.reports.size →
      ∃ used, s.rest = used ++ s'.rest ∧ explained used s'.rest a))
    fun stop s' => Onward s s' ∧ (stop = .error → s.reports.size < s'.reports.size)

/-- How `x` reads on, wherever it starts. -/
def Explains {α : Type} (x : Parser α) (explained : List Token → List Token → α → Prop) : Prop :=
  ∀ s, Ready s → ExplainsAt s x explained

section Judgement

variable {α β : Type} {s : State} {x : Parser α}
variable {explained weaker : List Token → List Token → α → Prop}
variable {goal : List Token → List Token → β → Prop}

/-- A parser and what follows it.  If both together made no report, then neither did alone, and what
the second one used is behind what the first one did. -/
theorem ExplainsAt.bind {k : α → Parser β} (first : ExplainsAt s x explained)
    (second : ∀ a s₁, Onward s s₁ → ExplainsAt s₁ (k a) fun used rest b =>
      ∀ before, explained before (used ++ rest) a → goal (before ++ used) rest b) :
    ExplainsAt s (x >>= k) goal := by
  refine Ensures.intro (fun b s' ran => ?_) fun stop s' ran => ?_
  · obtain ⟨a, s₁, ranFirst, ranSecond⟩ := run_bind_ok.mp ran
    obtain ⟨onward, silentFirst⟩ := first.of_ok ranFirst
    obtain ⟨onward', silentSecond⟩ := (second a s₁ onward).of_ok ranSecond
    refine ⟨onward.trans onward', fun silent => ?_⟩
    -- reports only grow, so if there are none at the end there were none in between
    have some := onward.reports
    have more := onward'.reports
    obtain ⟨before, split, explains⟩ := silentFirst (by omega)
    obtain ⟨used, split', explains'⟩ := silentSecond (by omega)
    rw [split'] at split explains
    exact ⟨before ++ used, by rw [split, List.append_assoc], explains' before explains⟩
  · rw [EStateM.run_bind] at ran
    cases ranFirst : x.run s with
    | error stop₁ s₁ =>
      rw [ranFirst] at ran
      cases ran
      exact first.of_error ranFirst
    | ok a s₁ =>
      rw [ranFirst] at ran
      obtain ⟨onward, -⟩ := first.of_ok ranFirst
      obtain ⟨onward', reported⟩ := (second a s₁ onward).of_error ran
      exact ⟨onward.trans onward', fun error => Nat.lt_of_le_of_lt onward.reports (reported error)⟩

/-- Only the run matters. -/
theorem ExplainsAt.congr {y : Parser α} (explains : ExplainsAt s y explained)
    (same : x.run s = y.run s) : ExplainsAt s x explained := by
  unfold ExplainsAt Ensures at *
  rw [same]
  exact explains

theorem ExplainsAt.mono (explains : ExplainsAt s x explained)
    (weaken : ∀ used rest a, s.rest = used ++ rest → explained used rest a → weaker used rest a) :
    ExplainsAt s x weaker := by
  refine Ensures.mono explains (fun a s' both => ⟨both.1, fun silent => ?_⟩) fun _ _ both => both
  obtain ⟨used, split, explains⟩ := both.2 silent
  exact ⟨used, split, weaken used s'.rest a split explains⟩

namespace Explains

theorem bind {k : α → Parser β} (first : Explains x explained)
    (second : ∀ a, Explains (k a) fun used rest b =>
      ∀ before, explained before (used ++ rest) a → goal (before ++ used) rest b) :
    Explains (x >>= k) goal :=
  fun s ready => (first s ready).bind fun a s₁ onward => second a s₁ (onward.ready ready)

theorem mono (explains : Explains x explained)
    (weaken : ∀ used rest a, explained used rest a → weaker used rest a) : Explains x weaker :=
  fun s ready => (explains s ready).mono fun used rest a _ => weaken used rest a

theorem pure {a : α} (holds : ∀ rest, explained [] rest a) : Explains (Pure.pure a) explained :=
  fun s _ => ⟨.refl s, fun _ => ⟨[], rfl, holds s.rest⟩⟩

theorem map {g : α → β} (explains : Explains x fun used rest a => goal used rest (g a)) :
    Explains (g <$> x) goal := by
  rw [map_eq_pure_bind]
  refine explains.bind fun a => .pure fun rest before explained => ?_
  rw [List.append_nil]
  exact explained

/-- What is read is there. -/
theorem there (explains : Explains x explained) :
    Explains (some <$> x) fun used rest a? => ∃ a, a? = some a ∧ explained used rest a :=
  .map (explains.mono fun _ _ a holds => ⟨a, rfl, holds⟩)

/-- What a parser that reads nothing finds out. -/
theorem look {found : State → α} (holds : ∀ s, Ready s → explained [] s.rest (found s)) :
    Explains (do return found (← get)) explained :=
  fun s ready => ⟨.refl s, fun _ => ⟨[], rfl, holds s ready⟩⟩

theorem tooDeep : Explains (throw .tooDeep) explained :=
  fun s _ => ⟨.refl s, fun same => nomatch same⟩

end Explains

end Judgement

/-! ### Taking tokens -/

section Tokens

variable {α β : Type} {goal : List Token → List Token → β → Prop}

theorem explains_report (t : Token) (error : GrammarError) :
    Explains (report t error) fun _ _ _ => False := by
  intro s _
  have grows : (s.reports.push (.grammar t error)).size = s.reports.size + 1 := Array.size_push _
  refine ⟨⟨rfl, rfl, List.suffix_refl _, Nat.le_of_lt ?_⟩, fun silent => ?_⟩
  · exact Nat.lt_of_lt_of_eq (Nat.lt_succ_self _) grows.symm
  · exact absurd (grows.symm.trans silent) (Nat.succ_ne_self _)

theorem explains_failExpecting (what : String) :
    Explains (failExpecting what : Parser β) goal := by
  intro s _
  have grows : (s.reports.push (.grammar s.current (.expected what))).size = s.reports.size + 1 :=
    Array.size_push _
  have less : s.reports.size < (s.reports.push (.grammar s.current (.expected what))).size := by
    rw [grows]
    exact Nat.lt_succ_self _
  exact ⟨⟨rfl, rfl, List.suffix_refl _, Nat.le_of_lt less⟩, fun _ => less⟩

/-- Looking for a token explains what it has seen: the token that it took has passed, or the next
one, if there is any, has not. -/
theorem explains_acceptIf? (passes : Token.Kind → Bool) :
    Explains (acceptIf? passes) fun used rest t? =>
      (∃ t, t? = some t ∧ used = [t] ∧ passes t.kind = true) ∨
        (t? = none ∧ used = [] ∧ ∀ t ∈ rest.head?, passes t.kind = false) := by
  intro s _
  refine Ensures.modifyGet ?_
  split
  · next empty =>
    refine ⟨.refl s, fun _ => ⟨[], rfl, .inr ⟨rfl, rfl, fun t mem => ?_⟩⟩⟩
    change t ∈ s.rest.head? at mem
    rw [empty] at mem
    cases mem
  · next first rest tokens =>
    split
    · next passed =>
      refine ⟨⟨rfl, rfl, ?_, Nat.le_refl _⟩, fun _ => ⟨[first], tokens, .inl ⟨_, rfl, rfl, passed⟩⟩⟩
      rw [tokens]
      exact List.suffix_cons _ _
    · next failed =>
      refine ⟨.refl s, fun _ => ⟨[], rfl, .inr ⟨rfl, rfl, fun t mem => ?_⟩⟩⟩
      change t ∈ s.rest.head? at mem
      rw [tokens] at mem
      cases mem
      exact Bool.eq_false_iff.mpr failed

/-- A parser that goes on by whether the next token passes.  In the first case that token is in
front of what the rest used, in the second one it is the first token that the rest sees. -/
theorem Explains.acceptIf {passes : Token.Kind → Bool} {k : Option Token → Parser β}
    (taken : ∀ t, Explains (k (some t)) fun used rest b =>
      passes t.kind = true → goal (t :: used) rest b)
    (left : Explains (k none) fun used rest b =>
      (∀ t ∈ (used ++ rest).head?, passes t.kind = false) → goal used rest b) :
    Explains (acceptIf? passes >>= k) goal := by
  refine (explains_acceptIf? passes).bind fun t? => ?_
  cases t? with
  | some t =>
    refine (taken t).mono fun used rest b holds before explained => ?_
    obtain ⟨_, ⟨⟩, rfl, passed⟩ | ⟨⟨⟩, -⟩ := explained
    exact holds passed
  | none =>
    refine left.mono fun used rest b holds before explained => ?_
    obtain ⟨_, ⟨⟩, -⟩ | ⟨-, rfl, stops⟩ := explained
    exact holds stops

/-- A parser that goes on by whether the next token is of a kind. -/
theorem Explains.accept {kind : Token.Kind} {k : Option Token → Parser β}
    (taken : ∀ t, Explains (k (some t)) fun used rest b => t.kind = kind → goal (t :: used) rest b)
    (left : Explains (k none) fun used rest b =>
      (∀ t ∈ (used ++ rest).head?, t.kind ≠ kind) → goal used rest b) :
    Explains (accept? kind >>= k) goal := by
  refine .acceptIf (fun t => (taken t).mono fun used rest b holds passed => ?_)
    (left.mono fun used rest b holds stops => ?_)
  · exact holds (of_decide_eq_true passed)
  · exact holds fun t mem => of_decide_eq_false (stops t mem)

theorem explains_expect (kind : Token.Kind) (what : String) :
    Explains (expect kind what) fun used _ t => used = [t] ∧ t.kind = kind :=
  .accept (fun _ => .pure fun _ is => ⟨rfl, is⟩) (explains_failExpecting what)

/-- A parser that goes on behind a token that has to be of a kind. -/
theorem Explains.expect {kind : Token.Kind} {what : String} {k : Token → Parser β}
    (next : ∀ t, Explains (k t) fun used rest b => t.kind = kind → goal (t :: used) rest b) :
    Explains (expect kind what >>= k) goal := by
  refine (explains_expect kind what).bind fun t => (next t).mono ?_
  rintro used rest b holds before ⟨rfl, is⟩
  exact holds is

/-- What the next token is, as far as a parser can see. -/
def Next (tokens : List Token) (t : Token) : Prop :=
  tokens.head? = some t ∨ (tokens = [] ∧ t.kind = .endOfText)

/-- A parser that goes on by what the next token is.  At the end of the tokens that is the ending,
which is never taken. -/
theorem Explains.peek {k : Token → Parser β}
    (next : ∀ t, Explains (k t) fun used rest b => Next (used ++ rest) t → goal used rest b) :
    Explains (peek >>= k) goal := by
  have sees : Explains Grammar.peek fun used rest t => used = [] ∧ Next rest t := by
    refine .look fun s ready => ⟨rfl, ?_⟩
    unfold State.current
    cases rest : s.rest with
    | nil => exact .inr ⟨rfl, ready.ending⟩
    | cons t tokens => exact .inl rfl
  refine sees.bind fun t => (next t).mono fun used rest b holds before explained => ?_
  obtain ⟨rfl, sees⟩ := explained
  exact holds sees

/-- A parser that takes the token it has seen.  It is there to be taken, since its kind is not that
of the ending. -/
theorem Explains.taking {kind : Token.Kind} {t : Token} {x : Parser β} (is : t.kind = kind)
    (inside : kind ≠ .endOfText) (next : Explains x fun used rest b => goal (t :: used) rest b) :
    Explains (accept? kind >>= fun _ => x) fun used rest b => Next (used ++ rest) t →
      goal used rest b := by
  refine .accept (fun t' => next.mono fun used rest b holds _ sees => ?_)
    (next.mono fun used rest b _ stops sees => ?_)
  -- what is taken is what was seen, unless the text has ended
  · rcases sees with first | ⟨none, -⟩
    · cases first
      exact holds
    · cases none
  · rcases sees with first | ⟨-, ends⟩
    · exact absurd is (stops t first)
    · exact absurd (is.symm.trans ends) inside

end Tokens

/-! ### Repetitions -/

section Repetitions

variable {α : Type} {derives : List Token → α → Prop} {limit : Nat}

/-- A list of no more than `limit` items with commas between them. -/
def Lists (derives : List Token → α → Prop) (limit : Nat) (used : List Token) (result : List α) :
    Prop :=
  ∃ items : List (List Token × α), result = items.map Prod.snd ∧
    (∀ item ∈ items, derives item.1 item.2) ∧ Separated (items.map Prod.fst) used ∧
    items.length ≤ limit

/-- What the items behind `before` come to when `count` of them have been read: a list, or more
tokens than the fuel allows for. -/
inductive SeparatedRead (derives : List Token → α → Prop) (limit fuel count : Nat)
    (before : List α) (used : List Token) (result : List α) : Prop
  | list (first : List Token × α) (items : List (List Token × α))
      (same : result = before.reverse ++ (first :: items).map Prod.snd)
      (each : ∀ item ∈ first :: items, derives item.1 item.2)
      (separated : Separated ((first :: items).map Prod.fst) used)
      (few : count + (first :: items).length ≤ limit)
  | nothing (noFuel : fuel = 0) (same : result = before.reverse) (unused : used = [])
  | tooLong (some : 0 < fuel) (long : 2 * fuel ≤ used.length)

/-- One item in front of those that are read behind the comma.  The count of the items and the fuel
both change by one, so a list that was too long stays so. -/
theorem SeparatedRead.more {fuel count : Nat} {before result : List α} {used first : List Token}
    {next : α} {comma : Token} (here : derives first next) (taken : 0 < first.length)
    (isComma : comma.kind = .comma)
    (read : SeparatedRead derives limit fuel (count + 1) (next :: before) used result) :
    SeparatedRead derives limit (fuel + 1) count before (first ++ comma :: used) result := by
  cases read with
  | list second items same each separated few =>
    refine .list (first, next) (second :: items) ?_ ?_ (.more isComma separated) ?_
    · rw [same, List.reverse_cons, List.append_assoc]
      rfl
    · intro item mem
      rcases List.mem_cons.mp mem with rfl | mem
      · exact here
      · exact each item mem
    · rw [List.length_cons]
      omega
  | nothing noFuel same unused =>
    refine .tooLong (Nat.succ_pos _) ?_
    rw [noFuel, List.length_append, List.length_cons]
    omega
  | tooLong some long =>
    refine .tooLong (Nat.succ_pos _) ?_
    rw [List.length_append, List.length_cons]
    omega

/-- A list is explained by its items, or too long for the fuel; the limit on the number of items is
none that a silent list could exceed. -/
theorem explains_separated {plural : String} {item : Parser α}
    (inner : Explains item fun used _ a => derives used a)
    (taken : ∀ used a, derives used a → 0 < used.length) : ∀ fuel count before,
    Explains (separated limit plural item fuel count before) fun used _ result =>
      SeparatedRead derives limit fuel count before used result
  | 0, count, before => .pure fun _ => .nothing rfl rfl rfl
  | fuel + 1, count, before => by
    have rest : Explains (separatedItem limit plural item fuel count before) fun used _ result =>
        count < limit → SeparatedRead derives limit (fuel + 1) count before used result := by
      refine inner.bind fun next => .accept (fun comma => ?_) (.pure ?_)
      · refine (explains_separated inner taken fuel (count + 1) (next :: before)).mono ?_
        intro used _ result read isComma first here _
        exact read.more here (taken first next here) isComma
      · intro _ _ first here below
        rw [List.append_nil]
        refine .list (first, next) [] List.reverse_cons ?_ (.one first) below
        intro item mem
        rw [List.mem_singleton.mp mem]
        exact here
    rw [separated_succ]
    split
    · refine .peek fun t => (explains_report t _).bind fun _ => rest.mono ?_
      exact fun _ _ _ _ _ impossible => impossible.elim
    · next below =>
      exact rest.mono fun used _ result read => read (Nat.lt_of_not_le below)

/-- The list between parentheses: the bound on its items is never reached.  There are no more items
than tokens, so it is the limit that ends a list which is too long, with a report. -/
theorem explains_listUpToParen {plural : String} {item : Parser α}
    (inner : Explains item fun used _ a => derives used a)
    (taken : ∀ used a, derives used a → 0 < used.length) :
    Explains (listUpToParen plural item) fun used _ result => Lists derives 255 used result := by
  intro s ready
  have empty : Lists derives 255 [] [] :=
    ⟨[], rfl, fun _ mem => absurd mem List.not_mem_nil, .none, Nat.zero_le _⟩
  refine .congr ?_ (run_listUpToParen plural item s)
  split
  · exact Explains.pure (fun _ => empty) s ready
  · refine .congr ((explains_separated inner taken s.bound 0 [] s ready).mono ?_) rfl
    intro used rest result split read
    have fits := ready.fits
    rw [split, List.length_append] at fits
    cases read with
    | list first items same each separated few =>
      rw [Nat.zero_add] at few
      exact ⟨_, same, each, separated, few⟩
    | nothing _ same unused =>
      rw [same, unused]
      exact empty
    | tooLong _ _ => omega

/-- Items one after the other. -/
def Sequence (derives : List Token → α → Prop) (used : List Token) (result : List α) : Prop :=
  ∃ items : List (List Token × α), result = items.map Prod.snd ∧
    (∀ item ∈ items, derives item.1 item.2) ∧ used = items.flatMap Prod.fst

theorem Sequence.nil : Sequence derives [] [] :=
  ⟨[], rfl, fun _ mem => absurd mem List.not_mem_nil, rfl⟩

theorem Sequence.cons {used more : List Token} {a : α} {result : List α} (here : derives used a)
    (others : Sequence derives more result) : Sequence derives (used ++ more) (a :: result) := by
  obtain ⟨items, rfl, each, rfl⟩ := others
  refine ⟨(used, a) :: items, rfl, fun item mem => ?_, rfl⟩
  rcases List.mem_cons.mp mem with rfl | mem
  · exact here
  · exact each item mem

/-- A sequence up to a brace is explained by its items, if each of them is and none failed.  Whether
the brace is there is for the caller to see. -/
theorem explains_itemsUpToBrace {item : Parser (Option α)}
    (inner : Explains item fun used _ a? => ∃ a, a? = some a ∧ derives used a) : ∀ fuel before,
    Explains (itemsUpToBrace item fuel before) fun used _ result =>
      ∃ more, result = before.reverse ++ more ∧ Sequence derives used more
  | 0, before => .pure fun _ => ⟨[], (List.append_nil _).symm, .nil⟩
  | fuel + 1, before => by
    have done : Explains (pure before.reverse) fun used _ result =>
        ∃ more, result = before.reverse ++ more ∧ Sequence derives used more :=
      .pure fun _ => ⟨[], (List.append_nil _).symm, .nil⟩
    have next : Explains (item >>= itemsNext item fuel before) fun used _ result =>
        ∃ more, result = before.reverse ++ more ∧ Sequence derives used more := by
      refine inner.bind fun a? => ?_
      cases a? with
      | none =>
        refine (explains_itemsUpToBrace inner fuel before).mono ?_
        rintro _ _ _ _ _ ⟨_, ⟨⟩, -⟩
      | some a =>
        refine (explains_itemsUpToBrace inner fuel (a :: before)).mono ?_
        rintro used _ _ ⟨more, rfl, sequence⟩ first ⟨_, ⟨⟩, here⟩
        refine ⟨a :: more, ?_, sequence.cons here⟩
        rw [List.reverse_cons, List.append_assoc]
        rfl
    intro s ready
    refine .congr ?_ (run_itemsUpToBrace item fuel before s)
    split
    · exact done s ready
    · exact next s ready

end Repetitions

end Grammar
end Arbor
