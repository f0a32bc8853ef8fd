import Arbor.Proofs.Program.Renaming
import Arbor.Proofs.Token.Munch
import Mathlib.Data.List.Forall2

/-!
# Respelled texts

In the text of a program an identifier can be given another spelling, here or there.  The pieces of
the text stay as they are apart from that: what can be seen of an identifier from the piece in front
of it is that it begins with a letter, and so no piece becomes longer or shorter than it was.

## Main definitions

* `Renaming.Respells`: a token that has the new spelling in place of the old one, or is the same.
* `Piece.Respelled`: so for pieces.
* `Piece.Alike`: texts that cannot be told apart by the piece in front of them.

## Main statements

* `Piece.Munches.respelled`: a respelled text is cut into the respelled pieces.
* `Scan.exists_respelled`: whatever tokens are respelled, there is a text that has them.
-/

namespace Arbor

/-- A token that is spelled in the new way, where it was an identifier of the old spelling, or one
that is the same. -/
def Renaming.Respells (ρ : Renaming) (t t' : Token) : Prop :=
  t' = t ∨ t.kind = .identifier ∧ t.lexeme = ρ.old ∧ t' = { t with lexeme := ρ.new }

namespace Piece

variable {ρ : Renaming} {c : Char} {tail text after after' : List Char} {p p' : Piece}

/-- A piece that is spelled in the new way, where it was an identifier of the old spelling, or one
that is the same. -/
def Respelled (ρ : Renaming) (p p' : Piece) : Prop :=
  p' = p ∨ ∃ literal, p = ⟨.token .identifier literal, ρ.old.toList⟩ ∧
    p' = ⟨.token .identifier literal, ρ.new.toList⟩

/-! ### What a piece sees of the text behind it -/

/-- A test of characters that does not tell letters from each other. -/
def Even (test : Char → Bool) : Prop :=
  ∀ c d, isLetter c = true → isLetter d = true → test c = test d

/-- Texts that begin alike, as far as letters need not be told from each other. -/
def Alike (text text' : List Char) : Prop :=
  ∀ test, Even test → text'.head?.any test = text.head?.any test

theorem Alike.of_head (same : text.head? = after.head?) : Alike text after :=
  fun _ _ => by rw [same]

theorem even_isWordChar : Even isWordChar := by
  intro c d letter letter'
  rw [isWordChar, letter, isWordChar, letter']
  rfl

theorem even_isDigit : Even isDigit := by
  intro c d letter letter'
  rw [Token.isDigit_of_letter letter, Token.isDigit_of_letter letter']

/-- A character that is no letter is told from all letters. -/
theorem even_beq {sign : Char} (other : isLetter sign = false) : Even (· == sign) := by
  have apart : ∀ c, isLetter c = true → (c == sign) = false := by
    intro c letter
    rw [beq_eq_false_iff_ne]
    rintro rfl
    rw [other] at letter
    cases letter
  intro c d letter letter'
  exact (apart c letter).trans (apart d letter').symm

theorem even_bne {sign : Char} (other : isLetter sign = false) : Even (· != sign) := by
  intro c d letter letter'
  exact congrArg (!·) (even_beq other c d letter letter')

/-- What is left when characters have been dropped does not begin with one of them. -/
theorem any_head?_dropWhile (test : Char → Bool) (text : List Char) :
    (text.dropWhile test).head?.any test = false := by
  have stops := List.head?_dropWhile_not test text
  cases left : (text.dropWhile test).head? with
  | none => rfl
  | some c =>
    rw [left] at stops
    simpa using stops

theorem takeWhile_append_stop {test : Char → Bool} {body : List Char}
    (each : ∀ c ∈ body, test c = true) (stop : after.head?.any test = false) :
    (body ++ after).takeWhile test = body ∧ (body ++ after).dropWhile test = after := by
  rw [List.takeWhile_append_of_pos each, List.dropWhile_append_of_pos each]
  cases after with
  | nil => simp
  | cons c rest =>
    have ends : ¬ test c = true := by simpa using stop
    simp [ends]

theorem head?_eq_of_any {sign : Char} (found : text.head?.any (· == sign) = true) :
    ∃ rest, text = sign :: rest := by
  cases text with
  | nil => cases found
  | cons c rest =>
    have same : c = sign := by simpa using found
    exact ⟨rest, by rw [same]⟩

/-- A sign that stands in front of one text stands in front of the other. -/
theorem Alike.sign {sign : Char} (alike : Alike text after) (other : isLetter sign = false)
    {rest : List Char} (there : after = sign :: rest) : ∃ rest', text = sign :: rest' := by
  refine head?_eq_of_any (?_ : text.head?.any (· == sign) = true)
  rw [← alike _ (even_beq other), there]
  simp

/-! ### The piece in front -/

theorem word_append {rest : List Char} (others : ∀ d ∈ rest, isWordChar d = true)
    (stop : after.head?.any isWordChar = false) :
    word c (rest ++ after) = (plain (.ofWord (String.ofList (c :: rest))) (c :: rest), after) := by
  obtain ⟨taken, left⟩ := takeWhile_append_stop others stop
  rw [word, taken, left]

theorem word_ahead (cut : word c (tail ++ after) = (p, after)) (spelled : p.chars = c :: tail)
    (alike : Alike after after') : word c (tail ++ after') = (p, after') := by
  obtain ⟨piece, left⟩ := Prod.mk.inj cut
  subst piece
  have taken : tail = (tail ++ after).takeWhile isWordChar := (List.cons.inj spelled).2.symm
  have stop : after'.head?.any isWordChar = false := by
    rw [alike _ even_isWordChar, ← left]
    exact any_head?_dropWhile _ _
  rw [word_append (fun d mem => List.mem_takeWhile_imp (taken ▸ mem)) stop, ← taken]

/-- A slash, or a comment, is cut off as before if the text behind it begins alike: another slash
behind a slash would make a comment of it, and there was none. -/
theorem slashed_ahead (cut : slashed c (tail ++ after) = (p, after)) (spelled : p.chars = c :: tail)
    (alike : Alike after after') : slashed c (tail ++ after') = (p, after') := by
  unfold slashed at cut
  split at cut
  · next rest whole =>
    obtain ⟨piece, left⟩ := Prod.mk.inj cut
    subst piece
    have taken : tail = (tail ++ after).takeWhile (· != '\n') := (List.cons.inj spelled).2.symm
    have stop : after'.head?.any (· != '\n') = false := by
      rw [alike _ (even_bne (by decide)), ← left]
      exact any_head?_dropWhile _ _
    have each : ∀ d ∈ tail, (d != '\n') = true :=
      fun d mem => List.mem_takeWhile_imp (p := (· != '\n')) (taken ▸ mem)
    obtain ⟨taken', left'⟩ := takeWhile_append_stop each stop
    -- the second slash is part of the comment
    cases tail with
    | nil =>
      rw [List.nil_append] at whole taken
      rw [whole] at taken
      cases taken
    | cons d more =>
      obtain rfl : d = '/' := (List.cons.inj whole).1
      unfold slashed
      rw [List.cons_append] at taken' left' ⊢
      rw [taken', left', ← taken]
      rfl
  · next alone =>
    obtain ⟨piece, -⟩ := Prod.mk.inj cut
    subst piece
    obtain rfl : tail = [] := (List.cons.inj spelled).2.symm
    unfold slashed
    split
    · next rest there =>
      obtain ⟨rest', here⟩ := alike.sign (by decide) there
      exact absurd here (alone rest')
    · rfl

/-- A string is cut off as before whatever is behind it, if it is closed.  It ends at the first
quote, and that is not behind it. -/
theorem quoted_ahead (closed : p.role ≠ .unterminated) (cut : quoted c (tail ++ after) = (p, after))
    (spelled : p.chars = c :: tail) : quoted c (tail ++ after') = (p, after') := by
  unfold quoted at cut
  dsimp only at cut
  split at cut
  · obtain ⟨rfl, -⟩ := Prod.mk.inj cut
    exact absurd rfl closed
  · next quote rest left =>
    obtain ⟨piece, same⟩ := Prod.mk.inj cut
    subst piece same
    have taken : tail = (tail ++ rest).takeWhile (· != '"') ++ [quote] :=
      (List.cons.inj spelled).2.symm
    generalize body : (tail ++ rest).takeWhile (· != '"') = inside at *
    have unquoted : ∀ d ∈ inside, (d != '"') = true := by
      rw [← body]
      exact fun d mem => List.mem_takeWhile_imp (p := (· != '"')) mem
    have stop : ((quote :: after').head?.any (· != '"')) = false := by
      have ends := any_head?_dropWhile (· != '"') (tail ++ rest)
      rwa [left] at ends
    obtain ⟨taken', left'⟩ := takeWhile_append_stop unquoted stop
    rw [taken, List.append_assoc, List.singleton_append]
    unfold quoted
    dsimp only
    rw [taken', left']

/-- There is still no fraction where there was none: the point would have to be there already, and a
digit behind it. -/
theorem fractionPart_ahead (alike : Alike after after')
    (point : ∀ rest, after = '.' :: rest → Alike rest after'.tail)
    (none : ∀ d rest, after = '.' :: d :: rest → isDigit d = false) :
    fractionPart after' = ([], after') := by
  rcases fractionPart_cases after' with ⟨whole, -⟩ | ⟨d, rest', there, digit, -⟩
  · exact whole
  · obtain ⟨rest, here⟩ := alike.sign (by decide) there
    -- the digit behind the point would be there as well
    have digits : rest.head?.any isDigit = true := by
      rw [← point rest here _ even_isDigit, there]
      simpa using digit
    cases rest with
    | nil => cases digits
    | cons e rest =>
      have other := none e rest here
      have same : isDigit e = true := by simpa using digits
      rw [other] at same
      cases same

/-- A number is cut off as before.  It matters whether a digit follows, or a point with a digit
behind, so the text has to be alike behind the point as well. -/
theorem number_ahead (cut : number c (tail ++ after) = (p, after)) (spelled : p.chars = c :: tail)
    (alike : Alike after after') (point : ∀ rest, after = '.' :: rest → Alike rest after'.tail) :
    number c (tail ++ after') = (p, after') := by
  obtain ⟨piece, left⟩ := Prod.mk.inj cut
  subst piece
  have whole : (tail ++ after).takeWhile isDigit ++
      (fractionPart ((tail ++ after).dropWhile isDigit)).1 = tail := (List.cons.inj spelled).2
  have each : ∀ d ∈ (tail ++ after).takeWhile isDigit, isDigit d = true :=
    fun d mem => List.mem_takeWhile_imp mem
  have stop := any_head?_dropWhile isDigit (tail ++ after)
  generalize digits : (tail ++ after).takeWhile isDigit = front at *
  generalize further : (tail ++ after).dropWhile isDigit = text at *
  rcases fractionPart_cases text with ⟨none, notDigit⟩ | ⟨d, rest, there, digit, some⟩
  · rw [none] at whole left
    obtain rfl : front = tail := by simpa using whole
    obtain rfl : text = after := left
    have stop' : after'.head?.any isDigit = false := (alike _ even_isDigit).trans stop
    obtain ⟨taken, dropped⟩ := takeWhile_append_stop each stop'
    unfold number
    dsimp only
    rw [taken, dropped, fractionPart_ahead alike point notDigit, none]
  · rw [some] at whole left
    dsimp only at whole left
    subst whole left
    have stop' : after'.head?.any isDigit = false := by
      rw [alike _ even_isDigit]
      exact any_head?_dropWhile _ _
    have pointed : (('.' :: d :: rest.takeWhile isDigit) ++ after').head?.any isDigit = false := rfl
    obtain ⟨taken, dropped⟩ := takeWhile_append_stop each pointed
    have eachFurther : ∀ e ∈ rest.takeWhile isDigit, isDigit e = true :=
      fun e mem => List.mem_takeWhile_imp mem
    obtain ⟨taken', dropped'⟩ := takeWhile_append_stop eachFurther stop'
    have fraction : fractionPart (('.' :: d :: rest.takeWhile isDigit) ++ after')
        = ('.' :: d :: rest.takeWhile isDigit, after') := by
      rw [List.cons_append, List.cons_append, fractionPart, if_pos digit, taken', dropped']
    unfold number
    dsimp only
    rw [List.append_assoc, taken, dropped, fraction, some]

/-- The piece in front of a text stays the same if the text behind it begins alike.  The scanner
looks at one character behind a piece, and at two behind the digits of a number. -/
theorem front_ahead (closed : p.role ≠ .unterminated) (cut : front c (tail ++ after) = (p, after))
    (spelled : p.chars = c :: tail) (alike : Alike after after')
    (point : ∀ rest, after = '.' :: rest → Alike rest after'.tail) :
    front c (tail ++ after') = (p, after') := by
  unfold front at cut ⊢
  split at cut
  · obtain ⟨rfl, -⟩ := Prod.mk.inj cut
    obtain rfl : tail = [] := (List.cons.inj spelled).2.symm
    rfl
  · split at cut
    · next whole =>
      obtain ⟨rfl, rfl⟩ := Prod.mk.inj cut
      obtain rfl : tail = ['='] := (List.cons.inj spelled).2.symm
      rfl
    · next alone =>
      obtain ⟨rfl, -⟩ := Prod.mk.inj cut
      obtain rfl : tail = [] := (List.cons.inj spelled).2.symm
      split
      · next rest there =>
        obtain ⟨rest', here⟩ := alike.sign (by decide) there
        exact absurd here (alone rest')
      · rfl
  · split at cut
    · next slash =>
      rw [if_pos slash]
      exact slashed_ahead cut spelled alike
    · next notSlash =>
      rw [if_neg notSlash]
      split at cut
      · next blank =>
        obtain ⟨rfl, -⟩ := Prod.mk.inj cut
        obtain rfl : tail = [] := (List.cons.inj spelled).2.symm
        rw [if_pos blank]
        rfl
      · next notBlank =>
        rw [if_neg notBlank]
        split at cut
        · next quote =>
          rw [if_pos quote]
          exact quoted_ahead closed cut spelled
        · next notQuote =>
          rw [if_neg notQuote]
          split at cut
          · next digit =>
            rw [if_pos digit]
            exact number_ahead cut spelled alike point
          · next notDigit =>
            rw [if_neg notDigit]
            split at cut
            · next letter =>
              rw [if_pos letter]
              exact word_ahead cut spelled alike
            · next notLetter =>
              obtain ⟨rfl, -⟩ := Prod.mk.inj cut
              obtain rfl : tail = [] := (List.cons.inj spelled).2.symm
              rw [if_neg notLetter]
              rfl

/-! ### Respelled pieces -/

/-- What the rule of the longest piece cuts off is the piece in front. -/
theorem Munched.front_eq (munched : Munched after p) (spelled : p.chars = c :: tail) :
    front c (tail ++ after) = (p, after) := by
  have whole := front_chars_append c (tail ++ after)
  have same : p.chars ++ after
      = (front c (tail ++ after)).1.chars ++ (front c (tail ++ after)).2 := by
    rw [whole, spelled]
    rfl
  obtain ⟨piece, left⟩ := munched.unique (munched_front c (tail ++ after)) same
  exact Prod.ext piece.symm left.symm

/-- Respelled pieces begin alike: both names begin with a letter, and the other pieces are the
same. -/
theorem alike_of_respelled {pieces pieces' : List Piece} (munches : Munches text pieces)
    (same : List.Forall₂ (Respelled ρ) pieces pieces') :
    Alike (pieces.flatMap chars) (pieces'.flatMap chars) := by
  cases same with
  | nil => exact .of_head rfl
  | @cons p p' rest rest' first others =>
    rcases first with rfl | ⟨literal, rfl, rfl⟩
    · obtain ⟨c, tail, spelled⟩ := munches.tail.1.exists_cons
      rw [List.flatMap_cons, List.flatMap_cons, spelled]
      exact .of_head rfl
    · obtain ⟨c, tail, spelled, letter, -⟩ := ρ.old_identifier.form
      obtain ⟨d, tail', spelled', letter', -⟩ := ρ.new_identifier.form
      intro test even
      simp only [List.flatMap_cons, spelled, spelled', List.cons_append, List.head?_cons,
        Option.any_some]
      exact even d c letter' letter

/-- An identifier of the new spelling is cut off where one of the old spelling was.  It ends at the
first character that belongs to no word, and the new spelling has none of these. -/
theorem Munched.respelled {literal : Constant}
    (munched : Munched after ⟨.token .identifier literal, ρ.old.toList⟩)
    (alike : Alike after after') : Munched after' ⟨.token .identifier literal, ρ.new.toList⟩ := by
  obtain ⟨c, tail, spelled, letter, others⟩ := ρ.old_identifier.form
  obtain ⟨d, tail', spelled', letter', others'⟩ := ρ.new_identifier.form
  have cut : word c (tail ++ after) = (⟨.token .identifier literal, ρ.old.toList⟩, after) := by
    have whole := word_chars_append c (tail ++ after)
    have same : ρ.old.toList ++ after
        = (word c (tail ++ after)).1.chars ++ (word c (tail ++ after)).2 := by
      rw [whole, spelled]
      rfl
    obtain ⟨piece, left⟩ := munched.unique (munched_word letter) same
    exact Prod.ext piece.symm left.symm
  obtain ⟨piece, left⟩ := Prod.mk.inj cut
  obtain rfl : .nil = literal := (Role.token.inj (congrArg Piece.role piece)).2
  have stop : after'.head?.any isWordChar = false := by
    rw [alike _ even_isWordChar, ← left]
    exact any_head?_dropWhile _ _
  have new : word d (tail' ++ after') = (⟨.token .identifier .nil, ρ.new.toList⟩, after') := by
    rw [word_append others' stop, ← spelled', String.ofList_toList, ρ.new_identifier.free]
    rfl
  have result : Munched (word d (tail' ++ after')).2 (word d (tail' ++ after')).1 :=
    munched_word letter'
  rwa [new] at result

/-- A string that a text ends in has nothing behind it. -/
theorem Munched.closed_or_last (munched : Munched after p) :
    p.role ≠ .unterminated ∨ after = [] := by
  cases munched with
  | longest form => exact .inl (by cases form <;> nofun)
  | unexpected => exact .inl nofun
  | unterminated _ last => exact .inr last

/-- Behind a point stands the piece after it.  A point that is in front of a text is a piece of its
own, since no number begins with one. -/
theorem alike_behind_point {pieces pieces' : List Piece} (munches : Munches text pieces)
    (same : List.Forall₂ (Respelled ρ) pieces pieces') {further : List Char}
    (whole : pieces.flatMap chars = '.' :: further) :
    Alike further (pieces'.flatMap chars).tail := by
  cases same with
  | nil => cases whole
  | @cons p p' rest rest' first others =>
    obtain ⟨munched, munches'⟩ := munches.tail
    obtain ⟨d, more, spelled⟩ := munched.exists_cons
    rw [List.flatMap_cons, spelled] at whole
    obtain ⟨rfl, behind⟩ := List.cons.inj whole
    have single : p = plain .dot ['.'] := (Prod.mk.inj (munched.front_eq spelled)).1.symm
    subst single
    obtain rfl : more = [] := (List.cons.inj spelled).2.symm
    rcases first with rfl | ⟨_, absurd, -⟩
    · rw [← behind]
      exact alike_of_respelled munches' others
    · cases absurd

/-- A respelled text is cut into the respelled pieces.  The induction is on the pieces; each is cut
off as before since the rest begins alike, or as the new name. -/
theorem Munches.respelled {pieces pieces' : List Piece} (munches : Munches text pieces)
    (same : List.Forall₂ (Respelled ρ) pieces pieces') :
    Munches (pieces'.flatMap chars) pieces' := by
  induction same generalizing text with
  | nil => exact .nil
  | @cons p p' rest rest' first others ih =>
    obtain ⟨munched, munches'⟩ := munches.tail
    have alike := alike_of_respelled munches' others
    rw [List.flatMap_cons]
    refine .cons ?_ (ih munches')
    rcases first with rfl | ⟨literal, rfl, rfl⟩
    · rcases munched.closed_or_last with closed | last
      · obtain ⟨c, tail, spelled⟩ := munched.exists_cons
        have cut := front_ahead closed (munched.front_eq spelled) spelled alike
          fun _ whole => alike_behind_point munches' others whole
        have result := munched_front c (tail ++ rest'.flatMap chars)
        rwa [cut] at result
      · cases others with
        | nil => exact munched
        | cons =>
          obtain ⟨c, tail, spelled⟩ := munches'.tail.1.exists_cons
          rw [List.flatMap_cons, spelled] at last
          cases last
    · exact munched.respelled alike

end Piece

/-! ### Respelled scans -/

namespace Scan

variable {ρ : Renaming}

/-- The tokens of some pieces, from a line on. -/
def tokensFrom (line : Int) : List Piece → List Token
  | [] => []
  | ⟨.token kind literal, chars⟩ :: rest =>
    ⟨kind, String.ofList chars, literal, line + (chars.count '\n' : Int)⟩ ::
      tokensFrom (line + (chars.count '\n' : Int)) rest
  | ⟨_, chars⟩ :: rest => tokensFrom (line + (chars.count '\n' : Int)) rest

theorem tokens_foldl_add (pieces : List Piece) (s : Scan) :
    (pieces.foldl add s).tokens.toList = s.tokens.toList ++ tokensFrom s.line pieces := by
  induction pieces generalizing s with
  | nil => exact (List.append_nil _).symm
  | cons piece rest ih =>
    obtain ⟨role, chars⟩ := piece
    rw [List.foldl_cons, ih]
    cases role <;> simp [add, tokensFrom]

/-- Every token comes from a piece with the same characters, whatever line it is on.  The induction
is on the pieces. -/
theorem exists_piece {pieces : List Piece} {line : Int} {t : Token}
    (mem : t ∈ tokensFrom line pieces) :
    ∃ literal chars, ⟨.token t.kind literal, chars⟩ ∈ pieces ∧ t.lexeme = String.ofList chars := by
  induction pieces generalizing line with
  | nil => cases mem
  | cons piece rest ih =>
    have later : ∀ {line : Int}, t ∈ tokensFrom line rest → ∃ literal chars,
        ⟨.token t.kind literal, chars⟩ ∈ piece :: rest ∧ t.lexeme = String.ofList chars := by
      intro line mem
      obtain ⟨literal, chars, found, spelled⟩ := ih mem
      exact ⟨literal, chars, List.mem_cons_of_mem _ found, spelled⟩
    obtain ⟨role, chars⟩ := piece
    cases role with
    | token kind literal =>
      rcases List.mem_cons.mp mem with rfl | mem
      · exact ⟨literal, chars, List.mem_cons_self, rfl⟩
      · exact later mem
    | gap | unexpected | unterminated => exact later mem

/-- The identifiers of a text are words that variables can be called: the scanner has looked them up
among the keywords, and they are none. -/
theorem isIdentifier_of_mem {text : String} {t : Token} (mem : t ∈ (ofText text).tokens)
    (identifier : t.kind = .identifier) : Token.IsIdentifier t.lexeme := by
  have listed : t ∈ (ofText text).tokens.toList := Array.mem_toList_iff.mpr mem
  have tokens := tokens_foldl_add (Piece.split text.toList) {}
  change (ofText text).tokens.toList = _ at tokens
  rw [tokens] at listed
  obtain ⟨literal, chars, found, spelled⟩ := exists_piece listed
  rw [identifier] at found
  obtain ⟨earlier, later, split⟩ := List.append_of_mem found
  have munches : Piece.Munches text.toList (Piece.split text.toList) := Piece.munches_iff.mpr rfl
  rw [spelled]
  cases munches.each _ _ _ split with
  | longest form _ =>
    cases form with
    | token spells =>
      cases spells with
      | sign sign => exact absurd sign (by decide)
      | keyword keyword => exact absurd keyword (by decide)
      | @identifier first rest letter others free =>
        refine ⟨⟨first, rest, String.toList_ofList, letter, others⟩, ?_⟩
        exact Token.Kind.ofWord_free free

/-- Identifiers stay on their line. -/
theorem count_newline {word : String} (identifier : Token.IsIdentifier word) :
    word.toList.count '\n' = 0 := by
  obtain ⟨first, rest, spelled, letter, others⟩ := identifier.form
  rw [spelled, List.count_eq_zero]
  intro mem
  rcases List.mem_cons.mp mem with rfl | mem
  · exact absurd letter (by decide)
  · exact absurd (others _ mem) (by decide)

/-- Respelled pieces are on the same lines, and there is as much to report on them.  A name contains
no end of line, and is not reported. -/
theorem foldl_add_respelled {pieces pieces' : List Piece}
    (same : List.Forall₂ (Piece.Respelled ρ) pieces pieces') {s s' : Scan} (line : s'.line = s.line)
    (reports : s'.reports = s.reports) :
    (pieces'.foldl add s').line = (pieces.foldl add s).line ∧
      (pieces'.foldl add s').reports = (pieces.foldl add s).reports := by
  induction same generalizing s s' with
  | nil => exact ⟨line, reports⟩
  | @cons p p' rest rest' first others ih =>
    rw [List.foldl_cons, List.foldl_cons]
    rcases first with rfl | ⟨literal, rfl, rfl⟩
    · obtain ⟨role, chars⟩ := p'
      cases role <;> exact ih (by simp [add, line]) (by simp [add, line, reports])
    · refine ih ?_ reports
      simp only [add, count_newline ρ.old_identifier, count_newline ρ.new_identifier, line]

/-- Pieces can be respelled so that they are given tokens.  Neither spelling has a line end in it,
so the tokens stay on their lines. -/
theorem exists_respelled_pieces (pieces : List Piece) {line : Int} {tokens' : List Token}
    (same : List.Forall₂ ρ.Respells (tokensFrom line pieces) tokens') :
    ∃ pieces', List.Forall₂ (Piece.Respelled ρ) pieces pieces' ∧
      tokensFrom line pieces' = tokens' := by
  induction pieces generalizing line tokens' with
  | nil =>
    cases same
    exact ⟨[], .nil, rfl⟩
  | cons piece rest ih =>
    obtain ⟨role, chars⟩ := piece
    cases role with
    | token kind literal =>
      obtain ⟨t', others', first, others, rfl⟩ := List.forall₂_cons_left_iff.mp same
      obtain ⟨rest', respelled, tokens⟩ := ih others
      rcases first with rfl | ⟨identifier, old, rfl⟩
      · exact ⟨_, .cons (.inl rfl) respelled, by rw [tokensFrom, tokens]⟩
      · dsimp only at identifier old
        subst identifier
        obtain rfl : chars = ρ.old.toList := by rw [← old, String.toList_ofList]
        refine ⟨_, .cons (.inr ⟨literal, rfl, rfl⟩) respelled, ?_⟩
        rw [count_newline ρ.old_identifier] at tokens
        rw [tokensFrom, count_newline ρ.new_identifier, count_newline ρ.old_identifier, tokens,
          String.ofList_toList]
    | gap | unexpected | unterminated =>
      obtain ⟨rest', respelled, tokens⟩ := ih same
      exact ⟨_, .cons (.inl rfl) respelled, tokens⟩

/-- Whatever tokens of a text are respelled, there is a text with these tokens, whose other pieces
are those of the first text. -/
theorem exists_respelled {text : String} {tokens' : List Token}
    (same : List.Forall₂ ρ.Respells (ofText text).tokens.toList tokens') :
    ∃ text' : String,
      List.Forall₂ (Piece.Respelled ρ) (Piece.split text.toList) (Piece.split text'.toList) ∧
      (ofText text').tokens.toList = tokens' ∧ (ofText text').line = (ofText text).line ∧
      (ofText text').reports = (ofText text).reports := by
  have tokens := tokens_foldl_add (Piece.split text.toList) {}
  change (ofText text).tokens.toList = _ at tokens
  rw [tokens] at same
  obtain ⟨pieces', respelled, tokens'⟩ := exists_respelled_pieces _ same
  have munches := (Piece.munches_iff.mpr rfl).respelled respelled
  have pieces : Piece.split (String.ofList (pieces'.flatMap Piece.chars)).toList = pieces' := by
    rw [String.toList_ofList]
    exact (Piece.munches_iff.mp munches).symm
  have scan : ofText (String.ofList (pieces'.flatMap Piece.chars)) = pieces'.foldl add {} := by
    rw [ofText, pieces]
  obtain ⟨line, reports⟩ := @foldl_add_respelled ρ _ _ respelled {} {} rfl rfl
  refine ⟨String.ofList (pieces'.flatMap Piece.chars), ?_, ?_, ?_, ?_⟩
  · rwa [pieces]
  · rw [scan, tokens_foldl_add]
    exact tokens'
  · rw [scan]
    exact line
  · rw [scan]
    exact reports

end Scan
end Arbor
