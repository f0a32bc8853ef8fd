import Arbor.Proofs.Grammar.Derivation
import Arbor.Proofs.Grammar.Unfolding

/-!
# Parsers that read given tokens

How a parser goes through tokens that are known to stand in front of it.  `Leads` follows it part by
part and sets the case aside in which it runs out of room; `Complete` is the same for a whole parser
and any room.  How much room is enough depends on the tokens, not on what stands behind them.

Lists and sequences of items that can be read are read, since the fuel of the loops is the number of
all tokens and every item takes at least one.

## Main definitions

* `Grammar.Leads`: one parser continues as another.
* `Grammar.Complete`: a parser that reads some tokens.

## Main statements

* `Grammar.exists_leads_listUpToParen`, `Grammar.exists_leads_itemsUpToBrace`: the loops.
-/

namespace Arbor
namespace Grammar

/-! ### Judgement -/

/-- A state in front of other tokens. -/
def State.facing (s : State) (rest : List Token) : State :=
  { s with rest := rest }

/-- From `s` on `x` does what `y` does from `s'` on, unless it lacks room, which it does only if
there is little of it. -/
def Leads {α : Type} (little : Prop) (x : Parser α) (s : State) (y : Parser α) (s' : State) : Prop :=
  x.run s = y.run s' ∨ (little ∧ ∃ stopped, x.run s = .error .tooDeep stopped)

namespace Leads

variable {α β : Type} {little : Prop} {x y z : Parser α} {s s₁ s' : State}

theorem trans (first : Leads little x s y s₁) (second : Leads little y s₁ z s') :
    Leads little x s z s' := by
  rcases first with same | short
  · rcases second with same' | ⟨short, stopped, stops⟩
    · exact .inl (same.trans same')
    · exact .inr ⟨short, stopped, same.trans stops⟩
  · exact .inr short

theorem mono {less : Prop} (leads : Leads little x s y s') (weaker : little → less) :
    Leads less x s y s' :=
  leads.imp_right fun short => ⟨weaker short.1, short.2⟩

/-- One part of a parser behind another. -/
theorem bind {a : α} {k : α → Parser β} {y : Parser β} (first : Leads little x s (pure a) s₁)
    (second : Leads little (k a) s₁ y s') : Leads little (x >>= k) s y s' := by
  rcases first with same | ⟨short, stopped, stops⟩
  · have whole : (x >>= k).run s = (k a).run s₁ := by
      rw [EStateM.run_bind, same]
      rfl
    exact second.imp (whole.trans ·) fun short => ⟨short.1, short.2.imp fun _ => (whole.trans ·)⟩
  · refine .inr ⟨short, stopped, ?_⟩
    rw [EStateM.run_bind, stops]

/-- A parser behind a part that is known to run. -/
theorem after {a : α} {k : α → Parser β} {y : Parser β} (ran : x.run s = .ok a s₁)
    (second : Leads little (k a) s₁ y s') : Leads little (x >>= k) s y s' :=
  bind (.inl ran) second

theorem map {a : α} {g : α → β} (leads : Leads little x s (pure a) s') :
    Leads little (g <$> x) s (pure (g a)) s' := by
  rw [map_eq_pure_bind]
  exact leads.bind (.inl rfl)

theorem refl : Leads little x s x s :=
  .inl rfl

theorem tooDeep (short : little) : Leads little (throw .tooDeep) s y s' :=
  .inr ⟨short, s, rfl⟩

end Leads

/-- In front of some tokens the parser takes them and returns `a`, if what follows lets it stop and
there is enough room. -/
def Complete {α : Type} (parser : Nat → Parser α) (follows : List Token → Prop)
    (tokens : List Token) (a : α) : Prop :=
  ∃ need, ∀ (room : Nat) (s : State) (rest : List Token),
    (tokens ++ rest).length ≤ s.bound → follows rest →
    Leads (room < need) (parser room) (s.facing (tokens ++ rest)) (pure a) (s.facing rest)

/-- A parser that spends one level.  It needs one level more than what it calls, and without any it
stops for lack of room, which the need excludes. -/
theorem Complete.spending {α : Type} {parser : Nat → Parser α} {follows : List Token → Prop}
    {tokens : List Token} {a : α} (need : Nat) (tooDeep : parser 0 = throw .tooDeep)
    (succ : ∀ (room : Nat) (s : State) (rest : List Token), (tokens ++ rest).length ≤ s.bound →
      follows rest → Leads (room < need) (parser (room + 1)) (s.facing (tokens ++ rest)) (pure a)
        (s.facing rest)) : Complete parser follows tokens a := by
  refine ⟨need + 1, fun room s rest fits stops => ?_⟩
  cases room with
  | zero =>
    rw [tooDeep]
    exact .tooDeep (Nat.succ_pos _)
  | succ room => exact (succ room s rest fits stops).mono fun _ => by omega

/-! ### Taking tokens -/

section Tokens

variable {s : State} {t : Token} {rest : List Token} {kind : Token.Kind}

theorem run_acceptIf?_passes {passes : Token.Kind → Bool} (passed : passes t.kind = true) :
    (acceptIf? passes).run (s.facing (t :: rest)) = .ok (some t) (s.facing rest) := by
  have run : (acceptIf? passes).run (s.facing (t :: rest)) =
      (fun both : Option Token × State => .ok both.1 both.2)
        (if passes t.kind = true then (some t, s.facing rest) else (none, s.facing (t :: rest))) :=
    rfl
  rw [run, if_pos passed]

/-- Nothing is taken if the next token is not one of those asked for, or if there is none. -/
theorem run_acceptIf?_stops {passes : Token.Kind → Bool}
    (stops : ∀ t ∈ rest.head?, passes t.kind = false) :
    (acceptIf? passes).run (s.facing rest) = .ok none (s.facing rest) := by
  cases rest with
  | nil => rfl
  | cons t rest =>
    have run : (acceptIf? passes).run (s.facing (t :: rest)) =
        (fun both : Option Token × State => .ok both.1 both.2)
          (if passes t.kind = true then (some t, s.facing rest) else (none, s.facing (t :: rest))) :=
      rfl
    rw [run, if_neg (Bool.eq_false_iff.mp (stops t rfl))]

theorem run_accept?_is (is : t.kind = kind) :
    (accept? kind).run (s.facing (t :: rest)) = .ok (some t) (s.facing rest) :=
  run_acceptIf?_passes (decide_eq_true is)

theorem run_accept?_other (other : ∀ t ∈ rest.head?, t.kind ≠ kind) :
    (accept? kind).run (s.facing rest) = .ok none (s.facing rest) :=
  run_acceptIf?_stops fun t mem => decide_eq_false (other t mem)

theorem run_accept?_ne (other : t.kind ≠ kind) :
    (accept? kind).run (s.facing (t :: rest)) = .ok none (s.facing (t :: rest)) :=
  run_accept?_other fun _ first => Option.some.inj first ▸ other

theorem run_expect (what : String) (is : t.kind = kind) :
    (expect kind what).run (s.facing (t :: rest)) = .ok t (s.facing rest) := by
  unfold expect
  rw [EStateM.run_bind, run_accept?_is is]
  rfl

theorem run_peek : peek.run (s.facing (t :: rest)) = .ok t (s.facing (t :: rest)) :=
  rfl

theorem isAt_facing (is : t.kind = kind) : (s.facing (t :: rest)).isAt kind = true :=
  decide_eq_true is

theorem isAt_facing_other (other : t.kind ≠ kind) : (s.facing (t :: rest)).isAt kind = false :=
  decide_eq_false other

end Tokens

/-! ### Lists -/

section Lists

variable {α : Type} {item : Nat → Parser α} {follows : List Token → Prop}

/-- A list begins with its first item. -/
theorem Separated.begins {passes : Token.Kind → Bool} {first tokens : List Token}
    {items : List (List Token)} (separated : Separated (first :: items) tokens)
    (begins : Begins passes first) : Begins passes tokens := by
  cases separated with
  | one => exact begins
  | more => exact begins.append _

/-- There are no more items than tokens, as each item has a token at least.  So the fuel, which
counts tokens, is enough for all of them. -/
theorem length_le_of_separated {items : List (List Token)} {tokens : List Token}
    (separated : Separated items tokens) (filled : ∀ item ∈ items, 0 < item.length) :
    items.length ≤ tokens.length := by
  induction separated with
  | none => exact Nat.le_refl _
  | one item => exact filled item List.mem_cons_self
  | more isComma others ih =>
    have rest := ih fun item mem => filled item (List.mem_cons_of_mem _ mem)
    simp only [List.length_append, List.length_cons] at rest ⊢
    omega

/-- Items with commas between them are read one after the other.  The last item is told from the
others by the token behind it, which is no comma; each other one is followed by one. -/
theorem exists_leads_separated (limit : Nat) (plural : String)
    (commas : ∀ t rest, t.kind = .comma → follows (t :: rest)) :
    ∀ {items : List (List Token × α)} {tokens : List Token},
      (∀ one ∈ items, Complete item follows one.1 one.2) →
      Separated (items.map Prod.fst) tokens → items ≠ [] →
      ∃ need, ∀ (room fuel count : Nat) (before : List α) (s : State) (rest : List Token),
        (tokens ++ rest).length ≤ s.bound → follows rest → (∀ t ∈ rest.head?, t.kind ≠ .comma) →
        count + items.length ≤ limit → items.length ≤ fuel →
        Leads (room < need) (separated limit plural (item room) fuel count before)
          (s.facing (tokens ++ rest)) (pure (before.reverse ++ items.map Prod.snd)) (s.facing rest)
  | [], _, _, _, filled => absurd rfl filled
  | [(tokens, a)], _, each, .one _, _ => by
    obtain ⟨need, complete⟩ := each _ List.mem_cons_self
    refine ⟨need, fun room fuel count before s rest fits follow noComma few enough => ?_⟩
    obtain ⟨fuel, rfl⟩ := Nat.exists_eq_succ_of_ne_zero (Nat.ne_of_gt enough)
    rw [List.length_singleton] at few
    rw [separated_succ, if_neg (by omega)]
    refine (complete room s rest fits follow).bind (.after (run_accept?_other noComma) ?_)
    rw [List.reverse_cons]
    exact .refl
  | (tokens, a) :: second :: items, _, each, .more isComma separated, _ => by
    obtain ⟨need₁, complete⟩ := each _ List.mem_cons_self
    obtain ⟨need₂, later⟩ := exists_leads_separated limit plural commas
      (fun one mem => each one (List.mem_cons_of_mem _ mem)) separated (List.cons_ne_nil _ _)
    refine ⟨need₁ + need₂, fun room fuel count before s rest fits follow noComma few enough => ?_⟩
    obtain ⟨fuel, rfl⟩ := Nat.exists_eq_succ_of_ne_zero (Nat.ne_of_gt (Nat.lt_of_lt_of_le
      (Nat.succ_pos _) enough))
    rw [List.length_cons] at few enough
    rw [List.append_assoc, List.cons_append] at fits ⊢
    rw [separated_succ, if_neg (by omega)]
    refine ((complete room s _ fits (commas _ _ isComma)).mono fun _ => by omega).bind ?_
    refine .after (run_accept?_is isComma) ?_
    have later := later room fuel (count + 1) (a :: before) s rest (by simp at fits ⊢; omega)
      follow noComma (by omega) (by omega)
    rw [List.reverse_cons, List.append_assoc] at later
    exact later.mono fun _ => by omega

/-- A list between parentheses.  It may be empty, which is told by the parenthesis, as no item
begins with one that closes. -/
theorem exists_leads_listUpToParen (plural : String)
    (commas : ∀ t rest, t.kind = .comma → follows (t :: rest))
    (parens : ∀ t rest, t.kind = .rightParen → follows (t :: rest))
    {items : List (List Token × α)} {tokens : List Token}
    (each : ∀ one ∈ items, Complete item follows one.1 one.2)
    (begins : ∀ one ∈ items, Begins (· != .rightParen) one.1)
    (separated : Separated (items.map Prod.fst) tokens) (few : items.length ≤ 255) :
    ∃ need, ∀ (room : Nat) (s : State) (paren : Token) (rest : List Token),
      (tokens ++ paren :: rest).length ≤ s.bound → paren.kind = .rightParen →
      Leads (room < need) (listUpToParen plural (item room)) (s.facing (tokens ++ paren :: rest))
        (pure (items.map Prod.snd)) (s.facing (paren :: rest)) := by
  by_cases empty : items = []
  · subst empty
    cases separated
    refine ⟨0, fun room s paren rest fits isParen => .inl ?_⟩
    rw [List.nil_append, run_listUpToParen, if_pos (isAt_facing isParen)]
    rfl
  · obtain ⟨need, leads⟩ := exists_leads_separated listLimit plural commas each separated empty
    refine ⟨need, fun room s paren rest fits isParen => ?_⟩
    have noComma : ∀ t ∈ (paren :: rest).head?, t.kind ≠ .comma := by
      rintro t ⟨⟩
      rw [isParen]
      decide
    -- the fuel is the number of all tokens, and every item has at least one
    have long := length_le_of_separated separated fun one mem => by
      obtain ⟨one, there, rfl⟩ := List.mem_map.mp mem
      exact (begins one there).length_pos
    have enough : items.length ≤ s.bound := by
      rw [List.length_map] at long
      rw [List.length_append] at fits
      omega
    have inside : (s.facing (tokens ++ paren :: rest)).isAt .rightParen = false := by
      obtain ⟨first, others, rfl, other⟩ : Begins (· != .rightParen) tokens := by
        cases items with
        | nil => exact absurd rfl empty
        | cons one items => exact separated.begins (begins one List.mem_cons_self)
      exact isAt_facing_other (by simpa using other)
    have read := leads room s.bound 0 [] s (paren :: rest) fits (parens paren rest isParen) noComma
      (by rwa [Nat.zero_add]) enough
    refine Leads.trans (.inl ?_) read
    rw [run_listUpToParen, inside]
    rfl

end Lists

/-! ### Sequences -/

section Items

variable {α : Type} {item : Nat → Parser (Option α)} {follows : List Token → Prop}
variable {starts : Token.Kind → Bool}

/-- Items are read one after the other up to a closing brace.  No item begins with that brace, so
the list goes on as long as there is another item. -/
theorem exists_leads_itemsUpToBrace (noBrace : starts .rightBrace = false)
    (next : ∀ (t : Token) rest, starts t.kind = true ∨ t.kind = .rightBrace → follows (t :: rest)) :
    ∀ {items : List (List Token × α)}, (∀ one ∈ items, Complete item follows one.1 (some one.2)) →
      (∀ one ∈ items, Begins starts one.1) →
      ∃ need, ∀ (room fuel : Nat) (before : List α) (s : State) (closing : Token)
        (rest : List Token), (items.flatMap Prod.fst ++ closing :: rest).length ≤ s.bound →
        closing.kind = .rightBrace → items.length ≤ fuel →
        Leads (room < need) (itemsUpToBrace (item room) fuel before)
          (s.facing (items.flatMap Prod.fst ++ closing :: rest))
          (pure (before.reverse ++ items.map Prod.snd)) (s.facing (closing :: rest))
  | [], _, _ => by
    refine ⟨0, fun room fuel before s closing rest fits isClosing _ => .inl ?_⟩
    rw [List.map_nil, List.append_nil, List.flatMap_nil, List.nil_append]
    cases fuel with
    | zero => rfl
    | succ fuel =>
      rw [run_itemsUpToBrace, isAt_facing isClosing, Bool.or_true]
      rfl
  | (tokens, a) :: items, each, begins => by
    obtain ⟨need₁, complete⟩ := each _ List.mem_cons_self
    obtain ⟨need₂, later⟩ := exists_leads_itemsUpToBrace noBrace next
      (fun one mem => each one (List.mem_cons_of_mem _ mem))
      fun one mem => begins one (List.mem_cons_of_mem _ mem)
    obtain ⟨first, others, same, passes⟩ := begins _ List.mem_cons_self
    refine ⟨need₁ + need₂, fun room fuel before s closing rest fits isClosing enough => ?_⟩
    obtain ⟨fuel, rfl⟩ := Nat.exists_eq_succ_of_ne_zero (Nat.ne_of_gt (Nat.lt_of_lt_of_le
      (Nat.succ_pos _) enough))
    -- behind this item stands the next one or the closing brace
    have follow : follows (items.flatMap Prod.fst ++ closing :: rest) := by
      cases items with
      | nil => exact next _ _ (.inr isClosing)
      | cons one items =>
        obtain ⟨t, more, same, passes⟩ := begins one (List.mem_cons_of_mem _ List.mem_cons_self)
        rw [List.flatMap_cons, same]
        exact next t _ (.inl passes)
    rw [List.flatMap_cons, List.append_assoc] at fits ⊢
    have inside : (s.facing (tokens ++ (items.flatMap Prod.fst ++ closing :: rest))).isAt
        .rightBrace = false := by
      change tokens = first :: others at same
      rw [same]
      refine isAt_facing_other fun is => ?_
      rw [is, noBrace] at passes
      cases passes
    have there : (s.facing (tokens ++ (items.flatMap Prod.fst ++ closing :: rest))).rest.isEmpty
        = false := by
      change tokens = first :: others at same
      rw [same]
      rfl
    have one := complete room s _ fits follow
    have others := later room fuel (a :: before) s closing rest
      (by simp only [List.length_append] at fits ⊢; omega) isClosing (Nat.le_of_succ_le_succ enough)
    rw [List.reverse_cons, List.append_assoc] at others
    have unfolds : (itemsUpToBrace (item room) (fuel + 1) before).run
        (s.facing (tokens ++ (items.flatMap Prod.fst ++ closing :: rest))) =
        (item room >>= itemsNext (item room) fuel before).run
          (s.facing (tokens ++ (items.flatMap Prod.fst ++ closing :: rest))) := by
      rw [run_itemsUpToBrace, inside, there]
      rfl
    refine Leads.trans (.inl unfolds) ((one.mono fun _ => by omega).bind ?_)
    exact others.mono fun _ => by omega

/-- So it is for items that come one behind the other without anything in between. -/
theorem length_le_flatMap {items : List (List Token × α)}
    (begins : ∀ one ∈ items, Begins starts one.1) :
    items.length ≤ (items.flatMap Prod.fst).length := by
  induction items with
  | nil => exact Nat.le_refl _
  | cons one items ih =>
    have here := (begins one List.mem_cons_self).length_pos
    have rest := ih fun other mem => begins other (List.mem_cons_of_mem _ mem)
    rw [List.flatMap_cons, List.length_append, List.length_cons]
    omega

end Items

end Grammar
end Arbor
