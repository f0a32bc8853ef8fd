import Arbor.Proofs.Grammar.Explains
import Arbor.Proofs.Grammar.Leads
import Arbor.Proofs.Program.Relined

/-!
# Parsers in a larger text

A parser decides by the next token only.  So it does the same with its tokens whatever was read
before them, on whatever lines they stand, and whatever follows them, as long as it does not come to
look behind the last of them.

What a parser does with some tokens alone is compared with what it does with them in a larger text.
If it stops in front of one of the tokens, or if the larger text ends where they do, then both runs
agree.  If it returns behind the last token, they agree only if it had no reason to look further; a
parser that is `calm` does not, because it has just taken the token that it was bound to end with.

The loops have other bounds in the larger text.  That makes no difference, since each round takes a
token and both bounds cover all tokens.

## Main definitions

* `Grammar.Context`: what surrounds some tokens in a larger text.
* `Grammar.Local`: a parser does in the larger text what it does alone.

## Main statements

* `Grammar.local_expression`: expressions are read alike in every context.
-/

namespace Arbor
namespace Grammar

open Stateful

/-! ### Contexts -/

/-- What surrounds some tokens in a larger text. -/
structure Context where
  /-- Where the lines of the tokens are in the larger text. -/
  line : Int → Int
  /-- What was reported before. -/
  earlier : Array Diagnostic
  /-- The tokens that follow. -/
  more : List Token
  /-- The token behind the last one. -/
  ending : Token
  /-- The number of tokens in the larger text. -/
  bound : Nat

namespace Context

variable {c : Context} {s s' : State}

/-- A state of reading the tokens alone, in the larger text. -/
def embed (c : Context) (s : State) : State where
  rest := s.rest.map (Token.relined c.line) ++ c.more
  ending := c.ending
  bound := c.bound
  reports := c.earlier ++ s.reports.map (Diagnostic.relined c.line)

/-- Both bounds cover what remains, and neither text is empty. -/
structure Fits (c : Context) (s : State) : Prop where
  ready : Ready s
  inhabited : 0 < s.bound
  covers : s.rest.length + c.more.length ≤ c.bound
  inhabited' : 0 < c.bound

/-- The larger text ends where the tokens do. -/
def Ends (c : Context) (s : State) : Prop :=
  c.more = [] ∧ c.ending = s.ending.relined c.line

/-- What a parser can see is the same in the larger text: there is a next token, or both texts
end. -/
def Sees (c : Context) (s : State) : Prop :=
  s.rest ≠ [] ∨ c.Ends s

/-- A context still fits after some tokens were taken, since what it asks for is a bound on what is
left. -/
theorem Fits.onward (fits : c.Fits s) (onward : Onward s s') : c.Fits s' where
  ready := onward.ready fits.ready
  inhabited := by
    rw [onward.bound]
    exact fits.inhabited
  covers := Nat.le_trans (Nat.add_le_add_right onward.suffix.length_le _) fits.covers
  inhabited' := fits.inhabited'

/-- Where a text ends does not change while it is read. -/
theorem Ends.onward (ends : c.Ends s) (onward : Onward s s') : c.Ends s' :=
  ⟨ends.1, by rw [onward.ending]; exact ends.2⟩

/-- Reading takes tokens, so what can be seen at the end could be seen before. -/
theorem Sees.before (sees : c.Sees s') (onward : Onward s s') : c.Sees s := by
  rcases sees with some | ⟨none, ends⟩
  · refine .inl fun empty => some (List.eq_nil_of_suffix_nil ?_)
    rw [← empty]
    exact onward.suffix
  · rw [onward.ending] at ends
    exact .inr ⟨none, ends⟩

/-- A parser that has taken a token had one to see. -/
theorem sees_of_takes (taken : s'.rest.length < s.rest.length) : c.Sees s :=
  .inl fun empty => by
    rw [empty] at taken
    exact absurd taken (Nat.not_lt_zero _)

/-- In front of a token, and at a common end, the token that reading has come to is the same up to
its line. -/
theorem current_embed (sees : c.Sees s) : (c.embed s).current = s.current.relined c.line := by
  unfold State.current embed
  cases rest : s.rest with
  | cons t others => rfl
  | nil =>
    obtain ⟨none, ends⟩ := sees.resolve_left (· rest)
    rw [none]
    exact ends

/-- So is what can be asked about its kind. -/
theorem isAt_embed (sees : c.Sees s) (kind : Token.Kind) : (c.embed s).isAt kind = s.isAt kind := by
  unfold State.isAt embed
  cases rest : s.rest with
  | cons t others => rfl
  | nil =>
    obtain ⟨none, -⟩ := sees.resolve_left (· rest)
    rw [none]
    rfl

/-- The larger text has not ended as long as the text alone has tokens left. -/
theorem rest_embed_ne_nil (tokens : s.rest ≠ []) : (c.embed s).rest ≠ [] :=
  List.append_ne_nil_of_left_ne_nil (fun empty => tokens (List.map_eq_nil_iff.mp empty)) _

/-- On the same lines. -/
theorem embed_id (earlier : Array Diagnostic) (more : List Token) (ending : Token) (bound : Nat)
    (s : State) : (mk id earlier more ending bound).embed s =
      ⟨s.rest ++ more, ending, bound, earlier ++ s.reports⟩ := by
  unfold embed
  rw [Token.relined_id, Diagnostic.relined_id, List.map_id, Array.map_id]

/-- Where reading some tokens begins. -/
theorem fits_start {tokens : List Token} {ending : Token} (ends : ending.kind = .endOfText)
    (inhabited : tokens ≠ []) (covers : tokens.length + c.more.length ≤ c.bound) :
    c.Fits { rest := tokens, ending, bound := tokens.length } where
  ready := ⟨Nat.le_refl _, ends⟩
  inhabited := List.length_pos_iff.mpr inhabited
  covers := covers
  inhabited' := Nat.lt_of_lt_of_le (List.length_pos_iff.mpr inhabited) (Nat.le_of_add_right_le covers)

/-- Reports made alone are made in the larger text as well, behind the ones that were made
before. -/
theorem embed_report (t : Token) (error : GrammarError) :
    c.embed { s with reports := s.reports.push (.grammar t error) } =
      { c.embed s with
        reports := (c.embed s).reports.push (.grammar (t.relined c.line) error) } := by
  unfold embed
  rw [Array.map_push, Array.append_push]
  rfl

end Context

/-! ### Judgement -/

/-- What `x` does from `s` on, `y` does in the larger text, and `g` says what becomes of the value it
returns.  If `x` is `calm`, that holds also if all tokens are taken; if it `takes` a token, it does
not return without. -/
def LocalAt {α : Type} (c : Context) (calm takes : Prop) (x y : Parser α) (g : α → α) (s : State) :
    Prop :=
  Ensures x s
    (fun a s' => Onward s s' ∧ (takes → s'.rest.length < s.rest.length) ∧
      (c.Sees s' ∨ calm → y.run (c.embed s) = .ok (g a) (c.embed s')))
    fun stop s' => Onward s s' ∧ (c.Sees s' → y.run (c.embed s) = .error stop (c.embed s'))

/-- What `x` does, `y` does in the larger text. -/
def Local {α : Type} (c : Context) (calm takes : Prop) (x y : Parser α) (g : α → α) : Prop :=
  ∀ s, c.Fits s → LocalAt c calm takes x y g s

section Judgement

variable {α β : Type} {c : Context} {calm calm₁ takes takes₁ takes₂ : Prop} {x y x' y' : Parser α}
variable {g : α → α} {h : β → β} {s s₁ : State}

namespace LocalAt

/-- A parser that is local everywhere is local at a state that fits. -/
theorem of (fits : c.Fits s) (everywhere : Local c calm takes x y g) : LocalAt c calm takes x y g s :=
  everywhere s fits

/-- Only the two runs matter, and those may have come from elsewhere: from other parsers, in states
that are further on. -/
theorem of_run (inner : LocalAt c calm takes₁ x' y' g s₁) (onward : Onward s s₁)
    (alone : x.run s = x'.run s₁) (embedded : y.run (c.embed s) = y'.run (c.embed s₁))
    (taken : takes → s₁.rest.length < s.rest.length ∨ takes₁) : LocalAt c calm takes x y g s := by
  refine Ensures.intro (fun a s' ran => ?_) fun stop s' ran => ?_
  · obtain ⟨further, less, same⟩ := inner.of_ok (alone.symm.trans ran)
    have shorter := further.suffix.length_le
    refine ⟨onward.trans further, fun must => ?_, fun sees => embedded.trans (same sees)⟩
    rcases taken must with first | second
    · exact Nat.lt_of_le_of_lt shorter first
    · exact Nat.lt_of_lt_of_le (less second) onward.suffix.length_le
  · obtain ⟨further, same⟩ := inner.of_error (alone.symm.trans ran)
    exact ⟨onward.trans further, fun sees => embedded.trans (same sees)⟩

/-- Behind the last token nothing is said about the larger text.  So a parser that has come there
without seeing more may be any other one in the larger text. -/
theorem blind (inner : LocalAt c calm takes x y' g s) (unseen : ¬ c.Sees s) (quiet : calm → takes) :
    LocalAt c calm takes x y g s := by
  refine Ensures.mono inner ?_ ?_
  · rintro a s' ⟨onward, less, -⟩
    refine ⟨onward, less, ?_⟩
    rintro (sees | isCalm)
    · exact absurd (sees.before onward) unseen
    · exact absurd (Context.sees_of_takes (less (quiet isCalm))) unseen
  · rintro stop s' ⟨onward, -⟩
    exact ⟨onward, fun sees => absurd (sees.before onward) unseen⟩

/-- The two runs are compared only if the parser sees the same in both. -/
theorem of_sees (inner : LocalAt c calm takes x y' g s) (quiet : calm → takes)
    (same : c.Sees s → y.run (c.embed s) = y'.run (c.embed s)) : LocalAt c calm takes x y g s := by
  by_cases sees : c.Sees s
  · exact inner.of_run (.refl s) rfl (same sees) .inr
  · exact inner.blind sees quiet

/-- Less may be claimed: that a parser is calm under stronger assumptions, or that it takes a
token. -/
theorem mono {calm' takes' : Prop} (inner : LocalAt c calm takes x y g s) (calmer : calm' → calm)
    (taker : takes' → takes) : LocalAt c calm' takes' x y g s := by
  refine Ensures.mono inner ?_ fun _ _ both => both
  rintro a s' ⟨onward, less, same⟩
  exact ⟨onward, less ∘ taker, same ∘ Or.imp_right calmer⟩

/-- The second part is compared if the first one is: that leaves a token to see, or it is calm.
What a part has seen is in front of what is left behind it, so reports and the end of the text stay
apart. -/
theorem seq {k l : α → Parser β} (first : LocalAt c calm₁ takes₁ x y g s)
    (second : ∀ a s₁, Onward s s₁ → (takes₁ → s₁.rest.length < s.rest.length) →
      LocalAt c calm takes₂ (k a) (l (g a)) h s₁)
    (quiet : calm → calm₁ ∨ takes₂) (taken : takes → takes₁ ∨ takes₂) :
    LocalAt c calm takes (x >>= k) (y >>= l) h s := by
  refine Ensures.intro (fun b s' ran => ?_) fun stop s' ran => ?_
  · obtain ⟨a, s₁, ranFirst, ranSecond⟩ := run_bind_ok.mp ran
    obtain ⟨onward, less, same⟩ := first.of_ok ranFirst
    obtain ⟨further, less', same'⟩ := (second a s₁ onward less).of_ok ranSecond
    refine ⟨onward.trans further, fun must => ?_, fun sees => ?_⟩
    · rcases taken must with here | there
      · exact Nat.lt_of_le_of_lt further.suffix.length_le (less here)
      · exact Nat.lt_of_lt_of_le (less' there) onward.suffix.length_le
    · have between : c.Sees s₁ ∨ calm₁ := by
        rcases sees with sees | isCalm
        · exact .inl (sees.before further)
        · exact (quiet isCalm).symm.imp_left fun must => Context.sees_of_takes (less' must)
      rw [EStateM.run_bind, same between]
      exact same' sees
  · rw [EStateM.run_bind] at ran ⊢
    cases ranFirst : x.run s with
    | error stop₁ s₁ =>
      rw [ranFirst] at ran
      cases ran
      obtain ⟨onward, same⟩ := first.of_error ranFirst
      refine ⟨onward, fun sees => ?_⟩
      rw [same sees]
    | ok a s₁ =>
      rw [ranFirst] at ran
      obtain ⟨onward, less, same⟩ := first.of_ok ranFirst
      obtain ⟨further, same'⟩ := (second a s₁ onward less).of_error ran
      refine ⟨onward.trans further, fun sees => ?_⟩
      rw [same (.inl (sees.before further))]
      exact same' sees

/-- A part of a parser in front of another, which takes a token if the whole has to. -/
theorem bind {k l : α → Parser β} (first : LocalAt c calm₁ takes₁ x y g s)
    (second : ∀ a s₁, Onward s s₁ → (takes₁ → s₁.rest.length < s.rest.length) →
      LocalAt c calm takes (k a) (l (g a)) h s₁)
    (quiet : calm → calm₁ ∨ takes) : LocalAt c calm takes (x >>= k) (y >>= l) h s :=
  first.seq second quiet .inr

/-- Where the next token passes, it is taken, and what follows runs on the tokens behind it. -/
theorem run_acceptIf_some {passes : Token.Kind → Bool} {k : Option Token → Parser α} {t : Token}
    {rest : List Token} (tokens : s.rest = t :: rest) (passed : passes t.kind = true) :
    (acceptIf? passes >>= k).run s = (k (some t)).run (s.facing rest) := by
  have ran : (acceptIf? passes).run (s.facing (t :: rest)) = .ok (some t) (s.facing rest) :=
    run_acceptIf?_passes passed
  rw [← tokens] at ran
  change (acceptIf? passes).run s = _ at ran
  rw [EStateM.run_bind, ran]

/-- Where the next token does not pass, or there is none, nothing is taken. -/
theorem run_acceptIf_none {passes : Token.Kind → Bool} {k : Option Token → Parser α}
    (stops : ∀ t ∈ s.rest.head?, passes t.kind = false) :
    (acceptIf? passes >>= k).run s = (k none).run s := by
  have ran : (acceptIf? passes).run s = .ok none s := run_acceptIf?_stops stops
  rw [EStateM.run_bind, ran]

/-- Behind the last token nothing is taken. -/
theorem run_acceptIf_nil {passes : Token.Kind → Bool} {k : Option Token → Parser α}
    (empty : s.rest = []) : (acceptIf? passes >>= k).run s = (k none).run s := by
  refine run_acceptIf_none fun t mem => ?_
  rw [empty] at mem
  exact absurd mem (Option.not_mem_none t)

/-- A parser that takes the next token, which in the larger text is the same on another line.  It is
still the next one there, since what was added comes behind. -/
theorem taken {passes : Token.Kind → Bool} {k l : Option Token → Parser α} {t : Token}
    {rest : List Token} (tokens : s.rest = t :: rest) (passed : passes t.kind = true)
    (next : Onward s (s.facing rest) →
      LocalAt c calm False (k (some t)) (l (some (t.relined c.line))) g (s.facing rest)) :
    LocalAt c calm takes (acceptIf? passes >>= k) (acceptIf? passes >>= l) g s := by
  have onward : Onward s (s.facing rest) := by
    refine ⟨rfl, rfl, ?_, Nat.le_refl _⟩
    rw [tokens]
    exact List.suffix_cons _ _
  have front : (c.embed s).rest =
      t.relined c.line :: (rest.map (Token.relined c.line) ++ c.more) := by
    unfold Context.embed
    rw [tokens]
    rfl
  refine (next onward).of_run onward (run_acceptIf_some tokens passed) ?_ fun _ => .inl ?_
  · exact run_acceptIf_some front passed
  · rw [tokens]
    exact Nat.lt_succ_self _

/-- A parser that goes on by whether the next token passes.  In the larger text there may be a next
token where alone there is none. -/
theorem acceptIf {passes : Token.Kind → Bool} {k l : Option Token → Parser α}
    (next : ∀ t rest, s.rest = t :: rest → Onward s (s.facing rest) →
      LocalAt c calm False (k (some t)) (l (some (t.relined c.line))) g (s.facing rest))
    (left : LocalAt c calm takes (k none) (l none) g s)
    (quiet : calm → takes ∨ ∀ t ∈ c.more.head?, passes t.kind = false) :
    LocalAt c calm takes (acceptIf? passes >>= k) (acceptIf? passes >>= l) g s := by
  cases tokens : s.rest with
  | nil =>
    have alone : (acceptIf? passes >>= k).run s = (k none).run s :=
      run_acceptIf_nil tokens
    have front : (c.embed s).rest = c.more := by
      unfold Context.embed
      rw [tokens]
      rfl
    -- what follows in the larger text may be taken there, but then the runs are not compared
    by_cases stops : ∀ t ∈ c.more.head?, passes t.kind = false
    · exact left.of_run (.refl s) alone (run_acceptIf_none (by rwa [front])) .inr
    · have aside : LocalAt c calm takes (acceptIf? passes >>= k) (l none) g s :=
        left.of_run (.refl s) alone rfl .inr
      refine aside.blind ?_ ?_
      · rintro (some | ⟨none, -⟩)
        · exact some tokens
        · rw [none] at stops
          exact stops fun t mem => absurd mem (Option.not_mem_none t)
      · exact fun isCalm => (quiet isCalm).resolve_right stops
  | cons t rest =>
    cases passed : passes t.kind with
    | true => exact taken tokens passed (next t rest tokens)
    | false =>
      have stops : ∀ first ∈ s.rest.head?, passes first.kind = false := by
        rw [tokens]
        rintro _ ⟨⟩
        exact passed
      have stops' : ∀ first ∈ (c.embed s).rest.head?, passes first.kind = false := by
        unfold Context.embed
        rw [tokens]
        rintro _ ⟨⟩
        exact passed
      exact left.of_run (.refl s) (run_acceptIf_none stops) (run_acceptIf_none stops') .inr

/-- A parser that goes on by what the next token is. -/
theorem peek {k l : Token → Parser α}
    (inner : LocalAt c calm takes (k s.current) (l (s.current.relined c.line)) g s)
    (quiet : calm → takes) : LocalAt c calm takes (peek >>= k) (peek >>= l) g s := by
  have alone : LocalAt c calm takes (Grammar.peek >>= k) (l (s.current.relined c.line)) g s :=
    inner.of_run (.refl s) rfl rfl .inr
  refine alone.of_sees quiet fun sees => ?_
  rw [← Context.current_embed sees]
  rfl

/-- A parser that takes the token it has seen.  It cannot be the ending, which is the one token that
is not the same in the larger text. -/
theorem taking {kind : Token.Kind} {k l : Option Token → Parser α} (fits : c.Fits s)
    (is : s.current.kind = kind) (inside : kind ≠ .endOfText)
    (next : ∀ t, Local c calm False (k (some t)) (l (some (t.relined c.line))) g) :
    LocalAt c calm True (accept? kind >>= k) (accept? kind >>= l) g s := by
  unfold State.current at is
  cases tokens : s.rest with
  | nil =>
    rw [tokens] at is
    exact absurd (is.symm.trans fits.ready.ending) inside
  | cons t rest =>
    rw [tokens] at is
    exact taken tokens (decide_eq_true is) fun onward => next t _ (fits.onward onward)

end LocalAt

namespace Local

/-- Less may be claimed, at all states that fit. -/
theorem mono {calm' takes' : Prop} (inner : Local c calm takes x y g) (calmer : calm' → calm)
    (taker : takes' → takes) : Local c calm' takes' x y g :=
  fun s fits => (inner s fits).mono calmer taker

/-- What takes a token need not be known to. -/
theorem weaken (inner : Local c calm True x y g) : Local c calm takes x y g :=
  inner.mono id fun _ => trivial

/-- A part of a parser in front of one that takes a token. -/
theorem bind {k l : α → Parser β} (first : Local c calm₁ takes₁ x y g)
    (second : ∀ a, Local c calm True (k a) (l (g a)) h) : Local c calm True (x >>= k) (y >>= l) h :=
  fun s fits => (first s fits).bind
    (fun a s₁ onward _ => second a s₁ (fits.onward onward)) fun _ => .inr trivial

/-- A part of a parser that takes a token in front of another. -/
theorem andThen {k l : α → Parser β} (first : Local c calm True x y g)
    (second : ∀ a, Local c calm False (k a) (l (g a)) h) : Local c calm True (x >>= k) (y >>= l) h :=
  fun s fits => (first s fits).seq
    (fun a s₁ onward _ => second a s₁ (fits.onward onward)) .inl fun _ => .inl trivial

/-- A result that is given without reading is given in both texts.  Nothing was taken, so nothing
has to be seen. -/
theorem pure {a b : α} (same : b = g a) :
    Local c calm False (Pure.pure a) (Pure.pure b) g :=
  fun s _ => ⟨.refl s, False.elim, fun _ => by rw [same]; rfl⟩

/-- A rule without room stops in both texts alike. -/
theorem tooDeep : Local c calm takes (throw .tooDeep) (throw .tooDeep) g :=
  fun s _ => ⟨.refl s, fun _ => rfl⟩

/-- What is done with a result afterwards does not look at the text; it only has to commute with
moving the lines. -/
theorem map {f : α → β} (inner : Local c calm takes x y g) (same : ∀ a, f (g a) = h (f a)) :
    Local c calm takes (f <$> x) (f <$> y) h := by
  intro s fits
  rw [map_eq_pure_bind, map_eq_pure_bind]
  exact (inner s fits).seq (fun a s₁ onward _ => pure (same a) s₁ (fits.onward onward)) .inl .inl

/-- What is read is there. -/
theorem some (inner : Local c calm takes x y g) :
    Local c calm takes (some <$> x) (some <$> y) (Option.map g) :=
  inner.map fun _ => rfl

/-- A decision on the next token, with one way to go on if it was taken and one if it was not.
For the second to be calm behind the last token, no token that would have been taken may follow
there. -/
theorem acceptIf {passes : Token.Kind → Bool} {k l : Option Token → Parser α}
    (next : ∀ t, Local c calm False (k (.some t)) (l (.some (t.relined c.line))) g)
    (left : Local c calm takes (k none) (l none) g)
    (quiet : calm → takes ∨ ∀ t ∈ c.more.head?, passes t.kind = false) :
    Local c calm takes (acceptIf? passes >>= k) (acceptIf? passes >>= l) g :=
  fun s fits => .acceptIf (fun t _ _ onward => next t _ (fits.onward onward)) (left s fits) quiet

/-- The same for a token of one kind. -/
theorem accept {kind : Token.Kind} {k l : Option Token → Parser α}
    (next : ∀ t, Local c calm False (k (.some t)) (l (.some (t.relined c.line))) g)
    (left : Local c calm takes (k none) (l none) g)
    (quiet : calm → takes ∨ ∀ t ∈ c.more.head?, t.kind ≠ kind) :
    Local c calm takes (accept? kind >>= k) (accept? kind >>= l) g :=
  .acceptIf next left fun isCalm =>
    (quiet isCalm).imp_right fun other t mem => decide_eq_false (other t mem)

end Local

end Judgement

/-! ### Taking tokens -/

section Tokens

variable {α : Type} {c : Context} {calm takes : Prop} {g : α → α}

/-- A report lands on the token that it is about, on the line that this token has in the larger
text. -/
theorem local_report (t : Token) (error : GrammarError) :
    Local c True False (report t error) (report (t.relined c.line) error) id := by
  refine fun s _ => ⟨⟨rfl, rfl, List.suffix_refl _, ?_⟩, False.elim, fun _ => ?_⟩
  · exact Nat.le_of_lt (Nat.lt_of_lt_of_eq (Nat.lt_succ_self _) (Array.size_push _).symm)
  · rw [Context.embed_report]
    rfl

/-- A complaint looks at the current token to report it, and stops in both texts.  It is only made
of tokens at hand: behind the last one the two texts may differ, and nothing is claimed. -/
theorem local_failExpecting (what : String) :
    Local c calm True (failExpecting what) (failExpecting what) g := by
  intro s fits
  have stops : Local c calm True (throw .error : Parser α) (throw .error) g :=
    fun s _ => ⟨.refl s, fun _ => rfl⟩
  exact .peek ((local_report s.current (.expected what)).bind (fun _ => stops) s fits)
    fun _ => trivial

/-- A token that has to be there is taken or complained about, and behind it there is no reason to
look further. -/
theorem local_expect (kind : Token.Kind) (what : String) :
    Local c True True (expect kind what) (expect kind what) (Token.relined c.line) :=
  .accept (fun _ => .pure rfl) (local_failExpecting what) fun _ => .inl trivial

/-- A parser that ends with an expected token. -/
theorem local_closing (kind : Token.Kind) (what : String) {f f' : Token → α}
    (same : ∀ t, f' (t.relined c.line) = g (f t)) :
    Local c calm True (expect kind what >>= fun t => pure (f t))
      (expect kind what >>= fun t => pure (f' t)) g := by
  refine Local.mono ?_ (fun _ => trivial) id
  exact (local_expect kind what).andThen fun t => .pure (same t)

/-- A parser that looks whether the next token is of a kind.  If it has come to the end of the
tokens, the answer may differ in the larger text, so it has to be in sight of one. -/
theorem LocalAt.isAt {kind : Token.Kind} {x y x₁ y₁ x₂ y₂ : Parser α} {s : State}
    (alone : x.run s = (if s.isAt kind = true then x₁ else x₂).run s)
    (embedded : y.run (c.embed s) =
      (if (c.embed s).isAt kind = true then y₁ else y₂).run (c.embed s))
    (yes : LocalAt c calm takes x₁ y₁ g s) (no : LocalAt c calm takes x₂ y₂ g s)
    (quiet : calm → takes) : LocalAt c calm takes x y g s := by
  have both : LocalAt c calm takes x (if s.isAt kind = true then y₁ else y₂) g s := by
    split at alone
    · next is => exact yes.of_run (.refl s) alone (by rw [if_pos is]) .inr
    · next other => exact no.of_run (.refl s) alone (by rw [if_neg other]) .inr
  refine both.of_sees quiet fun sees => ?_
  rw [embedded, Context.isAt_embed sees]

end Tokens

/-! ### Repetitions -/

section Repetitions

variable {α : Type} {c : Context} {g : α → α}

/-- The fuel of a loop, alone and in the larger text, covers what remains. -/
structure Context.Fuels (c : Context) (s : State) (fuel fuel' : Nat) : Prop where
  alone : s.rest.length ≤ fuel
  embedded : s.rest.length + c.more.length ≤ fuel'

/-- The bounds that the loops begin with cover all tokens. -/
theorem Context.Fits.fuels {s : State} (fits : c.Fits s) : c.Fuels s s.bound c.bound :=
  ⟨fits.ready.fits, fits.covers⟩

/-- A round that takes a token leaves enough fuel for the next. -/
theorem Context.Fuels.less {s s₁ : State} {fuel fuel' : Nat}
    (fuels : c.Fuels s (fuel + 1) (fuel' + 1)) (shorter : s₁.rest.length < s.rest.length) :
    c.Fuels s₁ fuel fuel' := by
  obtain ⟨alone, embedded⟩ := fuels
  exact ⟨by omega, by omega⟩

/-- Loops with enough fuel: they are at the end of the tokens, or there is fuel for a round, which
takes a token.  The two sides need not have as much fuel as each other. -/
@[elab_as_elim]
theorem Context.Fuels.induction
    {motive : ∀ {fuel fuel' : Nat} {s : State}, c.Fuels s fuel fuel' → Prop}
    (atEnd : ∀ {fuel fuel' : Nat} {s : State} (fuels : c.Fuels s fuel fuel'), s.rest = [] →
      motive fuels)
    (round : ∀ {fuel fuel' : Nat} {s : State} (fuels : c.Fuels s (fuel + 1) (fuel' + 1)),
      s.rest ≠ [] → (∀ {s₁ : State} (shorter : s₁.rest.length < s.rest.length),
        motive (fuels.less shorter)) → motive fuels)
    {fuel fuel' : Nat} {s : State} (fuels : c.Fuels s fuel fuel') : motive fuels := by
  induction fuel generalizing fuel' s with
  | zero => exact atEnd fuels (List.eq_nil_of_length_eq_zero (Nat.le_zero.mp fuels.alone))
  | succ fuel ih =>
    by_cases empty : s.rest = []
    · exact atEnd fuels empty
    · have positive := List.length_pos_iff.mpr empty
      have embedded := fuels.embedded
      obtain ⟨fuel', rfl⟩ := Nat.exists_eq_succ_of_ne_zero (n := fuel') (by omega)
      exact round fuels empty fun shorter => ih (fuels.less shorter)

/-- A parser that returns at the end of the tokens without having looked for more than that.  In the
larger text this is the case only if nothing stands behind them either. -/
theorem LocalAt.atEnd {x y : Parser α} {a : α} {s : State} (empty : s.rest = [])
    (alone : x.run s = .ok a s)
    (embedded : (c.embed s).rest = [] → y.run (c.embed s) = .ok (g a) (c.embed s)) :
    LocalAt c False False x y g s := by
  refine Ensures.intro (fun a' s' ran => ?_) fun stop s' ran => by cases alone.symm.trans ran
  cases alone.symm.trans ran
  refine ⟨.refl s, False.elim, fun sees => embedded ?_⟩
  obtain ⟨none, -⟩ := (sees.resolve_right id).resolve_left (· empty)
  unfold Context.embed
  rw [empty, none]
  rfl

/-- Both loops begin with all the fuel there is. -/
theorem LocalAt.bound {calm takes : Prop} {k l : Nat → Parser α} {s : State}
    (inner : LocalAt c calm takes (k s.bound) (l c.bound) g s) :
    LocalAt c calm takes (Grammar.bound >>= k) (Grammar.bound >>= l) g s :=
  inner.of_run (.refl s) rfl rfl .inr

/-- Two tokens are taken in each round but the last, so there is fuel left for that.  The limit is
on the number of items, which is the same in both texts. -/
theorem local_separated {limit : Nat} {plural : String} {item : Parser α}
    (each : Local c False True item item g) : ∀ (fuel fuel' count : Nat) (before : List α) (s : State),
    c.Fits s → c.Fuels s fuel fuel' → 0 < fuel → 0 < fuel' →
      LocalAt c False False (separated limit plural item fuel count before)
        (separated limit plural item fuel' count (before.map g)) (List.map g) s
  | 0, _, _, _, _, _, _, positive, _ => absurd positive (Nat.lt_irrefl 0)
  | _, 0, _, _, _, _, _, _, positive => absurd positive (Nat.lt_irrefl 0)
  | fuel + 1, fuel' + 1, count, before, s, fits, fuels, _, _ => by
    have rest (s₁ : State) (fits : c.Fits s₁) (fuels : c.Fuels s₁ (fuel + 1) (fuel' + 1)) :
        LocalAt c False False (separatedItem limit plural item fuel count before)
          (separatedItem limit plural item fuel' count (before.map g)) (List.map g) s₁ := by
      refine (each s₁ fits).bind (fun next s₂ onward less => ?_) False.elim
      have fits₂ := fits.onward onward
      refine .acceptIf (fun comma others tokens onward' => ?_) ?_ False.elim
      · have shorter := less trivial
        rw [tokens, List.length_cons] at shorter
        obtain ⟨alone, embedded⟩ := fuels
        refine local_separated each fuel fuel' (count + 1) (next :: before) _ (fits₂.onward onward')
          ⟨?_, ?_⟩ ?_ ?_
        · change others.length ≤ fuel
          omega
        · change others.length + c.more.length ≤ fuel'
          omega
        · omega
        · omega
      · exact Local.pure (by rw [← List.map_cons, List.map_reverse]) s₂ fits₂
    rw [separated_succ, separated_succ]
    split
    · refine .peek ?_ False.elim
      refine (local_report s.current (.tooMany limit plural) s fits).bind
        (fun _ s₁ onward _ => ?_) False.elim
      have fuels₁ : c.Fuels s₁ (fuel + 1) (fuel' + 1) := by
        have shorter := onward.suffix.length_le
        obtain ⟨alone, embedded⟩ := fuels
        exact ⟨by omega, by omega⟩
      exact rest s₁ (fits.onward onward) fuels₁
    · exact rest s fits fuels

/-- A list in parentheses may be empty, which is seen at the parenthesis that closes it. -/
theorem local_listUpToParen {plural : String} {item : Parser α}
    (each : Local c False True item item g) :
    Local c False False (listUpToParen plural item) (listUpToParen plural item) (List.map g) := by
  intro s fits
  have none : Local c False False (pure []) (pure []) (List.map g) := .pure rfl
  refine .isAt (run_listUpToParen plural item s) (run_listUpToParen plural item (c.embed s))
    (none s fits) (.bound ?_) False.elim
  exact local_separated each _ _ 0 [] s fits fits.fuels fits.inhabited fits.inhabited'

/-- Behind the last token the items end. -/
theorem run_itemsUpToBrace_nil (item : Parser (Option α)) (fuel : Nat) (before : List α) {s : State}
    (empty : s.rest = []) : (itemsUpToBrace item fuel before).run s = .ok before.reverse s := by
  cases fuel with
  | zero => rfl
  | succ fuel =>
    rw [run_itemsUpToBrace, empty]
    rfl

/-- In front of a token the items end at a brace, and otherwise one more is read. -/
theorem run_itemsUpToBrace_cons (item : Parser (Option α)) (fuel : Nat) (before : List α) {s : State}
    (some : s.rest.isEmpty = false) : (itemsUpToBrace item (fuel + 1) before).run s =
      (if s.isAt .rightBrace = true then pure before.reverse else
        item >>= itemsNext item fuel before).run s := by
  rw [run_itemsUpToBrace, some, Bool.false_or]

/-- Items that take a token if there is one.  The sequence ends at the end of the tokens or at a
brace, and so in the larger text does its counterpart. -/
theorem local_itemsUpToBrace {item : Parser (Option α)}
    (each : ∀ s, c.Fits s → s.rest ≠ [] → LocalAt c False True item item (Option.map g) s)
    {fuel fuel' : Nat} {s : State} (fits : c.Fits s) (fuels : c.Fuels s fuel fuel')
    (before : List α) : LocalAt c False False (itemsUpToBrace item fuel before)
      (itemsUpToBrace item fuel' (before.map g)) (List.map g) s := by
  induction fuels using Context.Fuels.induction generalizing before with
  | @atEnd fuel fuel' s _ empty =>
    refine .atEnd empty (run_itemsUpToBrace_nil item fuel before empty) fun empty' => ?_
    rw [List.map_reverse]
    exact run_itemsUpToBrace_nil item fuel' _ empty'
  | @round fuel fuel' s _ tokens ih =>
    have some : s.rest.isEmpty = false := List.isEmpty_eq_false_iff.mpr tokens
    have some' : (c.embed s).rest.isEmpty = false :=
      List.isEmpty_eq_false_iff.mpr (Context.rest_embed_ne_nil tokens)
    have done : Local c False False (pure before.reverse) (pure (before.map g).reverse)
        (List.map g) := .pure List.map_reverse.symm
    refine .isAt (run_itemsUpToBrace_cons item fuel before some)
      (run_itemsUpToBrace_cons item fuel' _ some') (done s fits) ?_ False.elim
    refine (each s fits tokens).bind (fun a? s₁ onward less => ?_) False.elim
    cases a? with
    | some a => exact ih (less trivial) (fits.onward onward) (a :: before)
    | none => exact ih (less trivial) (fits.onward onward) before

end Repetitions

/-! ### Expressions -/

section Expressions

variable {c : Context}

/-- Moving the lines commutes with building an expression from an operator and its operands. -/
theorem Level.relined_build (line : Int → Int) (level : Level) (left : Expr) (operator : Token)
    (right : Expr) : (level.build left operator right).relined line =
      level.build (left.relined line) (operator.relined line) (right.relined line) := by
  cases level <;> rfl

/-- Behind the last token no operator follows, whatever the bound on the loop. -/
theorem run_operatorTail_nil (level : Level) (operand : Parser Expr) (fuel : Nat) (left : Expr)
    {s : State} (empty : s.rest = []) : (operatorTail level operand fuel left).run s = .ok left s := by
  cases fuel with
  | zero => rfl
  | succ fuel => exact (LocalAt.run_acceptIf_nil empty).trans rfl

/-- Operators of one level.  The two loops may have different bounds; the induction is on the tokens
left, since each round takes an operator and both bounds cover all tokens. -/
theorem local_operatorTail {level : Level} {operand : Parser Expr}
    (each : Local c False True operand operand (Expr.relined c.line)) {fuel fuel' : Nat} {s : State}
    (fits : c.Fits s) (fuels : c.Fuels s fuel fuel') (left : Expr) :
    LocalAt c False False (operatorTail level operand fuel left)
      (operatorTail level operand fuel' (left.relined c.line)) (Expr.relined c.line) s := by
  induction fuels using Context.Fuels.induction generalizing left with
  | @atEnd fuel fuel' s _ empty =>
    exact .atEnd empty (run_operatorTail_nil level operand fuel left empty)
      fun empty' => run_operatorTail_nil level operand fuel' _ empty'
  | @round fuel fuel' s _ _ ih =>
    refine .acceptIf (fun operator rest tokens onward => ?_) (Local.pure rfl s fits) False.elim
    have fits₁ := fits.onward onward
    refine (each _ fits₁).bind (fun right s₂ onward₂ _ => ?_) False.elim
    have shorter : s₂.rest.length < s.rest.length := by
      rw [tokens]
      exact Nat.lt_succ_of_le onward₂.suffix.length_le
    rw [← Level.relined_build]
    exact ih shorter (fits₁.onward onward₂) _

/-- Behind the last token no call follows, whatever the bound on the loop. -/
theorem run_callTail_nil (arguments : Expr → Parser Expr) (fuel : Nat) (left : Expr)
    {s : State} (empty : s.rest = []) : (callTail arguments fuel left).run s = .ok left s := by
  cases fuel with
  | zero => rfl
  | succ fuel =>
    exact (LocalAt.run_acceptIf_nil empty).trans ((LocalAt.run_acceptIf_nil empty).trans rfl)

/-- Calls and property accesses one behind the other, by the same induction.  The tree so far is
moved to other lines as a whole. -/
theorem local_callTail {arguments : Expr → Parser Expr}
    (each : ∀ callee, Local c False True (arguments callee) (arguments (callee.relined c.line))
      (Expr.relined c.line)) {fuel fuel' : Nat} {s : State} (fits : c.Fits s)
    (fuels : c.Fuels s fuel fuel') (left : Expr) :
    LocalAt c False False (callTail arguments fuel left)
      (callTail arguments fuel' (left.relined c.line)) (Expr.relined c.line) s := by
  induction fuels using Context.Fuels.induction generalizing left with
  | @atEnd fuel fuel' s _ empty =>
    exact .atEnd empty (run_callTail_nil arguments fuel left empty)
      fun empty' => run_callTail_nil arguments fuel' _ empty'
  | @round fuel fuel' s _ _ ih =>
    -- a round begins with a parenthesis or a dot, and what is behind it takes no token back
    have further {s₂ : State} {t : Token} {rest : List Token} (tokens : s.rest = t :: rest)
        (onward : Onward (s.facing rest) s₂) : s₂.rest.length < s.rest.length := by
      rw [tokens]
      exact Nat.lt_succ_of_le onward.suffix.length_le
    refine .acceptIf (fun paren rest tokens onward => ?_) ?_ False.elim
    · have fits₁ := fits.onward onward
      refine (each left _ fits₁).bind (fun call s₂ onward₂ _ => ?_) False.elim
      exact ih (further tokens onward₂) (fits₁.onward onward₂) call
    · refine .acceptIf (fun dot rest tokens onward => ?_) (Local.pure rfl s fits) False.elim
      have fits₁ := fits.onward onward
      refine (local_expect _ _ _ fits₁).bind (fun name s₂ onward₂ _ => ?_) False.elim
      exact ih (further tokens onward₂) (fits₁.onward onward₂) (.getField left name)

/-- Whether the left side can be assigned to depends on the tree alone, and so is the same in both
texts. -/
theorem local_assignment (target : Expr) (equals : Token) (value : Expr) :
    Local c False False (assignment target equals value)
      (assignment (target.relined c.line) (equals.relined c.line) (value.relined c.line))
      (Expr.relined c.line) := by
  cases target with
  | var | getField => exact .pure rfl
  | _ =>
    intro s fits
    exact (local_report equals .invalidTarget s fits).bind
      (fun _ s₁ onward _ => Local.pure rfl s₁ (fits.onward onward)) False.elim

/-- A primary expression is told by its first token, which is looked at before it is taken.  All but
those in parentheses are that one token, or `super` with the two that have to follow it. -/
theorem local_primaryWith {inner : Parser Expr}
    (each : Local c False True inner inner (Expr.relined c.line)) :
    Local c False True (primaryWith inner) (primaryWith inner) (Expr.relined c.line) := by
  intro s fits
  refine .peek ?_ False.elim
  rw [Token.kind_relined]
  cases is : s.current.kind with
  | kwFalse | kwTrue | kwNil | number | string | kwThis | identifier =>
    exact .taking fits is nofun fun _ => .pure rfl
  | kwSuper =>
    refine .taking fits is nofun fun _ => Local.weaken ?_
    exact (local_expect _ _).bind fun _ => local_closing _ _ fun _ => rfl
  | leftParen =>
    refine .taking fits is nofun fun _ => Local.weaken ?_
    exact each.bind fun _ => local_closing _ _ fun _ => rfl
  | _ => exact local_failExpecting _ s fits

/-- The arguments of a call, up to the parenthesis that becomes part of the tree. -/
theorem local_callWith {argument : Parser Expr}
    (each : Local c False True argument argument (Expr.relined c.line)) (callee : Expr) :
    Local c False True (callWith argument callee) (callWith argument (callee.relined c.line))
      (Expr.relined c.line) := by
  refine (local_listUpToParen each).bind fun arguments => local_closing _ _ fun paren => ?_
  rw [Expr.relined, Expr.allRelined_eq_map]

/-- What the rules for expressions do with a given room. -/
structure LocalExprs (c : Context) (room : Nat) : Prop where
  expression : Local c False True (expression room) (expression room) (Expr.relined c.line)
  assigned : Local c False True (assigned room) (assigned room) (Expr.relined c.line)
  operators : ∀ level,
    Local c False True (operators room level) (operators room level) (Expr.relined c.line)
  prefixed : Local c False True (prefixed room) (prefixed room) (Expr.relined c.line)
  called : Local c False True (called room) (called room) (Expr.relined c.line)
  arguments : ∀ callee, Local c False True (arguments room callee)
    (arguments room (callee.relined c.line)) (Expr.relined c.line)
  primary : Local c False True (primary room) (primary room) (Expr.relined c.line)

/-- One level more, for all rules of expressions at once.  Every rule takes a token, and whatever
token it looks at behind that, it has seen one of the text. -/
theorem LocalExprs.succ {room : Nat} (rules : LocalExprs c room) : LocalExprs c (room + 1) where
  expression := rules.assigned
  assigned := by
    refine (rules.operators .or).andThen fun target =>
      .accept (fun equals => .weaken ?_) (.pure rfl) False.elim
    exact rules.assigned.andThen fun value => local_assignment target equals value
  operators level := by
    have operand : Local c False True (level.operandParser room) (level.operandParser room)
        (Expr.relined c.line) := by
      unfold Level.operandParser
      split
      · exact rules.operators _
      · exact rules.prefixed
    rw [operators_succ]
    refine operand.andThen fun first s fits => .bound ?_
    exact local_operatorTail operand fits fits.fuels first
  prefixed := by
    refine .acceptIf (fun operator => Local.weaken ?_) rules.called False.elim
    exact rules.prefixed.andThen fun right => .pure rfl
  called := by
    refine rules.primary.andThen fun first s fits => .bound ?_
    exact local_callTail rules.arguments fits fits.fuels first
  arguments callee := local_callWith rules.expression callee
  primary := local_primaryWith rules.expression

/-- The rules of expressions are local at every room. -/
theorem LocalExprs.all (c : Context) : ∀ room, LocalExprs c room
  | 0 => ⟨.tooDeep, .tooDeep, fun _ => .tooDeep, .tooDeep, .tooDeep, fun _ => .tooDeep, .tooDeep⟩
  | room + 1 => (LocalExprs.all c room).succ

/-- An expression is read alike in every context.  It is not calm: behind its last token there may
be an operator in the larger text. -/
theorem local_expression (room : Nat) :
    Local c False True (expression room) (expression room) (Expr.relined c.line) :=
  (LocalExprs.all c room).expression

end Expressions
end Grammar
end Arbor
