import Arbor.Token.Scan

/-!
# How tokens are spelled

A word is a keyword exactly if it is spelled like one.  So the tokens of a text that are `this` or
`super` look like it, and no identifier does: names that a program makes up can never be mistaken
for the two names that the language itself binds.

## Main statements

* `Scan.spelled`: every token of a text is spelled like its kind.
-/

namespace Arbor

/-- A token that is spelled like its kind, as far as `this` and `super` are concerned: the two
keywords are, and no identifier looks like one of them. -/
structure Token.Spelled (t : Token) : Prop where
  this : t.kind = .kwThis → t.lexeme = "this"
  super : t.kind = .kwSuper → t.lexeme = "super"
  notThis : t.kind = .identifier → t.lexeme ≠ "this"
  notSuper : t.kind = .identifier → t.lexeme ≠ "super"

namespace Token

/-- A kind that is neither an identifier nor one of the two keywords says nothing. -/
theorem Spelled.of_other {t : Token} (notThis : t.kind ≠ .kwThis) (notSuper : t.kind ≠ .kwSuper)
    (notIdentifier : t.kind ≠ .identifier) : t.Spelled :=
  ⟨fun same => absurd same notThis, fun same => absurd same notSuper,
    fun same => absurd same notIdentifier, fun same => absurd same notIdentifier⟩

/-- A word that is a keyword is spelled like it.  Keywords are found by their spelling. -/
theorem Kind.name_ofWord {word : String} {kind : Kind} (found : Kind.ofWord word = kind)
    (keyword : kind ≠ .identifier) : kind.name = word := by
  unfold Kind.ofWord at found
  cases search : Kind.keywords.find? fun kind => kind.name == word with
  | none =>
    rw [search] at found
    exact absurd found.symm keyword
  | some first =>
    rw [search, Option.getD_some] at found
    have same := List.find?_some search
    rw [found, beq_iff_eq] at same
    exact same

/-- A word that is an identifier is spelled like no keyword.  Otherwise that keyword would have been
found. -/
theorem Kind.name_ne_of_identifier {word : String} (found : Kind.ofWord word = .identifier)
    {kind : Kind} (keyword : kind ∈ Kind.keywords) : kind.name ≠ word := by
  unfold Kind.ofWord at found
  cases search : Kind.keywords.find? fun kind => kind.name == word with
  | none =>
    have apart := List.find?_eq_none.mp search kind keyword
    intro same
    exact apart (beq_iff_eq.mpr same)
  | some first =>
    rw [search, Option.getD_some] at found
    have mem := List.mem_of_find?_eq_some search
    rw [found] at mem
    exact absurd mem (by decide)

theorem spelled_word (word : String) (literal : Constant) (line : Int) :
    Token.Spelled ⟨Kind.ofWord word, word, literal, line⟩ := by
  refine ⟨fun same => ?_, fun same => ?_, fun same => ?_, fun same => ?_⟩
  · exact (Kind.name_ofWord same (by decide)).symm
  · exact (Kind.name_ofWord same (by decide)).symm
  · have apart := Kind.name_ne_of_identifier same (show Kind.kwThis ∈ Kind.keywords by decide)
    exact fun same => apart same.symm
  · have apart := Kind.name_ne_of_identifier same (show Kind.kwSuper ∈ Kind.keywords by decide)
    exact fun same => apart same.symm

end Token

namespace Piece

/-- The kind of a token piece says nothing about `this` and `super`, or the piece is a word. -/
def Worded (piece : Piece) : Prop :=
  ∀ kind literal, piece.role = .token kind literal →
    (kind ≠ .kwThis ∧ kind ≠ .kwSuper ∧ kind ≠ .identifier) ∨
      kind = .ofWord (String.ofList piece.chars)

theorem worded_of_kind {kind : Token.Kind} {literal : Constant} {chars : List Char}
    (other : kind ≠ .kwThis ∧ kind ≠ .kwSuper ∧ kind ≠ .identifier) :
    Worded ⟨.token kind literal, chars⟩ := by
  intro kind' literal' same
  cases same
  exact .inl other

theorem single?_other {c : Char} {kind : Token.Kind} (found : single? c = some kind) :
    kind ≠ .kwThis ∧ kind ≠ .kwSuper ∧ kind ≠ .identifier := by
  unfold single? at found
  split at found <;> first | (cases found; decide) | cases found

theorem equalable?_other {c : Char} {alone withEqual : Token.Kind}
    (found : equalable? c = some (alone, withEqual)) :
    (alone ≠ .kwThis ∧ alone ≠ .kwSuper ∧ alone ≠ .identifier) ∧
      (withEqual ≠ .kwThis ∧ withEqual ≠ .kwSuper ∧ withEqual ≠ .identifier) := by
  unfold equalable? at found
  split at found <;> first | (cases found; decide) | cases found

/-- The piece in front of a text is a name, or one of the two keywords, only if it is spelled as a
word that stands for that kind, whichever way it was cut off. -/
theorem worded_front (first : Char) (text : List Char) : Worded (front first text).1 := by
  have silent {role : Role} {chars : List Char} (none : ∀ kind literal, role ≠ .token kind literal) :
      Worded ⟨role, chars⟩ := fun kind literal same => absurd same (none kind literal)
  unfold front
  split
  · next found => exact worded_of_kind (single?_other found)
  · next found =>
    split
    · exact worded_of_kind (equalable?_other found).2
    · exact worded_of_kind (equalable?_other found).1
  · split
    · unfold slashed
      split
      · exact silent (by simp)
      · exact worded_of_kind (by decide)
    split
    · exact silent (by simp)
    split
    · unfold quoted
      split
      · exact silent (by simp)
      · exact worded_of_kind (by decide)
    split
    · exact worded_of_kind (by decide)
    split
    · intro kind literal same
      cases same
      exact .inr rfl
    · exact silent (by simp)

/-- All pieces of a text are, if those before it are.  The induction is on the pieces that are left
to be cut off. -/
theorem worded_splitFrom {before : List Piece} : ∀ {fuel : Nat} {text : List Char},
    (∀ piece ∈ before, Worded piece) → ∀ piece ∈ splitFrom fuel text before, Worded piece := by
  intro fuel text
  induction fuel generalizing text before with
  | zero =>
    intro each piece mem
    exact each piece (List.mem_reverse.mp mem)
  | succ fuel ih =>
    intro each
    cases text with
    | nil =>
      intro piece mem
      exact each piece (List.mem_reverse.mp mem)
    | cons first text =>
      refine ih fun piece mem => ?_
      rcases List.mem_cons.mp mem with rfl | mem
      · exact worded_front first text
      · exact each piece mem

end Piece

namespace Scan

/-- A piece keeps the tokens well spelled. -/
theorem spelled_add {s : Scan} {piece : Piece} (worded : piece.Worded)
    (each : ∀ t ∈ s.tokens, t.Spelled) : ∀ t ∈ (s.add piece).tokens, t.Spelled := by
  unfold Scan.add
  split
  · next kind literal role =>
    intro t mem
    rcases Array.mem_push.mp mem with mem | rfl
    · exact each t mem
    · rcases worded kind literal role with ⟨notThis, notSuper, notIdentifier⟩ | word
      · exact .of_other notThis notSuper notIdentifier
      · rw [word]
        exact Token.spelled_word _ _ _
  · exact each
  · exact each
  · exact each

/-- Every token of a text is spelled like its kind.  So the kind of a token can be compared where
the language compares what is written. -/
theorem spelled (text : String) : ∀ t ∈ (Scan.ofText text).tokens, t.Spelled := by
  have pieces : ∀ piece ∈ Piece.split text.toList, piece.Worded :=
    Piece.worded_splitFrom fun piece mem => absurd mem List.not_mem_nil
  suffices run : ∀ (pieces : List Piece) (s : Scan), (∀ piece ∈ pieces, piece.Worded) →
      (∀ t ∈ s.tokens, t.Spelled) → ∀ t ∈ (pieces.foldl add s).tokens, t.Spelled by
    exact run _ {} pieces fun t mem => absurd mem (by simp)
  -- the scan goes through the pieces in order and adds at most one token for each
  intro pieces
  induction pieces with
  | nil => exact fun s _ each => each
  | cons piece rest ih =>
    intro s worded each
    exact ih (s.add piece) (fun other mem => worded other (List.mem_cons_of_mem _ mem))
      (spelled_add (worded piece List.mem_cons_self) each)

end Scan
end Arbor
