import Arbor.Proofs.Token.Concatenation

/-!
# Scanning what was scanned

A token is spelled the same wherever it stands, and where a blank or the end of the text follows, no
longer form can begin with its spelling.  So the spellings of any tokens, with blanks between them,
scan as those tokens again.  More than one blank may stand between two of them, and comments, if
each is closed by the end of its line and the first of them is set off from the token in front.

It does not matter what the tokens were taken from: characters that belong nowhere and a string in
which a text ends leave no token behind, and nothing of them is found in the spellings.

## Main definitions

* `Piece.Filler`, `Piece.Separator`: blanks and comments, and those that set two tokens apart.
* `Spaced`: spellings with separators between them.
* `Scan.lexemes`, `Scan.contents`: the spellings of the tokens, and the tokens without their lines.

## Main statements

* `Piece.munched_of_spells`: a token in front of a blank.
* `Scan.lexemes_rescan`: the lexemes of a text scan as its tokens.
-/

namespace Arbor

namespace Piece

open Token (Opening Spells Kind.signs equalables)

variable {after text filler : List Char} {c : Char}

/-! ### Tokens in front of a blank -/

/-- A text that is empty or begins with a blank. -/
def SetsOff (text : List Char) : Prop :=
  ∀ c, text.head? = some c → isBlank c = true

theorem setsOff_nil : SetsOff [] := by
  intro c none
  cases none

theorem setsOff_cons (blank : isBlank c = true) (text : List Char) : SetsOff (c :: text) := by
  intro d first
  cases first
  exact blank

/-- Characters that pass a test which no blank passes end in front of a blank.  So a piece of such
characters does not reach over it. -/
theorem length_le_of_setsOff {test : Char → Bool} {front body : List Char}
    (each : ∀ c ∈ front, test c = true) (blanks : ∀ c, isBlank c = true → test c = false)
    (sets : SetsOff after) (here : front <+: body ++ after) : front.length ≤ body.length := by
  rcases List.prefix_or_prefix_of_prefix here (List.prefix_append body after) with within | beyond
  · exact within.length_le
  · obtain ⟨further, rfl⟩ := beyond
    rw [List.prefix_append_right_inj] at here
    cases further with
    | nil => simp
    | cons c further =>
      obtain ⟨rest, rfl⟩ := here
      have passes := each c (by simp)
      have stops := blanks c (sets c rfl)
      rw [passes] at stops
      cases stops

theorem isWordChar_of_blank (c : Char) (blank : isBlank c = true) : isWordChar c = false := by
  simp only [isBlank, Bool.or_eq_true, beq_iff_eq] at blank
  rcases blank with ((rfl | rfl) | rfl) | rfl <;> decide

/-- The characters of a number. -/
def inNumber (c : Char) : Bool :=
  isDigit c || c == '.'

theorem inNumber_of_blank (c : Char) (blank : isBlank c = true) : inNumber c = false := by
  simp only [isBlank, Bool.or_eq_true, beq_iff_eq] at blank
  rcases blank with ((rfl | rfl) | rfl) | rfl <;> decide

theorem not_mem_equalables_of_blank (blank : isBlank c = true) : c ∉ equalables ∧ c ≠ '/' := by
  simp only [isBlank, Bool.or_eq_true, beq_iff_eq] at blank
  rcases blank with ((rfl | rfl) | rfl) | rfl <;> decide

/-- A text that is set off begins with no sign. -/
theorem SetsOff.ne_cons (sets : SetsOff text) {sign : Char} (other : isBlank sign = false)
    (rest : List Char) : text ≠ sign :: rest := by
  rintro rfl
  have blank := sets sign rfl
  rw [other] at blank
  cases blank

/-- All characters of a number are digits, or the point. -/
theorem inNumber_of_begins {digits decimals : List Char}
    (each : ∀ d ∈ digits, isDigit d = true)
    (further : decimals = [] ∨
      ∃ d more, decimals = '.' :: d :: more ∧ ∀ e ∈ d :: more, isDigit e = true) :
    ∀ c ∈ digits ++ decimals, inNumber c = true := by
  intro c mem
  rcases List.mem_append.mp mem with mem | mem
  · simp [inNumber, each c mem]
  · rcases further with rfl | ⟨d, more, rfl, digits⟩
    · cases mem
    · rcases List.mem_cons.mp mem with rfl | mem
      · rfl
      · simp [inNumber, digits c mem]

/-- A token is cut off in front of a blank, and at the end of a text.  A longer token of the same
form would have a blank inside, which only strings have, and these end with their quote. -/
theorem munched_of_spells {kind : Token.Kind} {literal : Constant} {chars : List Char}
    (spells : Spells kind literal chars) (sets : SetsOff after) :
    Munched after ⟨.token kind literal, chars⟩ := by
  refine .longest (.token spells) ?_
  obtain ⟨first, rest, rfl⟩ := spells.exists_cons
  cases spells.begins with
  | word opening others =>
    refine longest_of_token opening (by decide) rfl ?_
    intro kind literal rest' further begins whole
    cases begins with
    | word _ others' =>
      have within := length_le_of_setsOff others' isWordChar_of_blank sets ⟨further, whole.symm⟩
      exact Nat.succ_le_succ within
    | number other | string other | sign other => cases opening.symm.trans other
  | number opening spelled each further =>
    refine longest_of_token opening (by decide) rfl ?_
    intro kind literal rest' beyond begins whole
    cases begins with
    | number _ spelled' each' further' =>
      have passes : ∀ c ∈ rest', inNumber c = true := by
        intro c mem
        refine inNumber_of_begins each' further' c ?_
        rw [← spelled']
        exact List.mem_cons_of_mem _ mem
      have within := length_le_of_setsOff passes inNumber_of_blank sets ⟨beyond, whole.symm⟩
      exact Nat.succ_le_succ within
    | word other | string other | sign other => cases opening.symm.trans other
  | @string body opening spelled unquoted =>
    refine longest_of_token opening (by decide) rfl ?_
    intro kind literal rest' beyond begins whole
    cases begins with
    | @string body' _ spelled' unquoted' =>
      subst spelled spelled'
      have same : body = body' := string_unique unquoted unquoted' (by simpa using whole)
      simp [same]
    | word other | number other | sign other => cases opening.symm.trans other
  | @sign kind opening sign spelled =>
    obtain ⟨_, _, spelled', -, -, alone⟩ := Token.Kind.exists_sign_eq sign
    cases spelled.symm.trans spelled'
    refine longest_of_sign opening rfl (List.cons_ne_nil _ _) ?_ ?_
    · intro beyond _ equals
      rcases alone with rfl | ⟨-, rfl⟩
      · exact absurd equals (sets.ne_cons (by decide) beyond)
      · simp
    · rintro body rfl - ⟨beyond, same⟩
      -- a slash is a sign of its own, and no second one follows it
      rcases alone with rfl | ⟨equalable, -⟩
      · exact absurd same.symm (sets.ne_cons (by decide) _)
      · exact absurd equalable (by decide)

/-! ### Blanks and comments -/

/-- Blanks, and comments that are closed by the end of their line. -/
inductive Filler : List Char → Prop
  | nil : Filler []
  | blank {c : Char} {rest : List Char} (blank : isBlank c = true) (more : Filler rest) :
      Filler (c :: rest)
  | comment {body rest : List Char} (inLine : '\n' ∉ body) (more : Filler rest) :
      Filler ('/' :: '/' :: (body ++ '\n' :: rest))

/-- What may stand between two tokens: blanks and comments, of which the first is a blank. -/
structure Separator (gap : List Char) : Prop where
  filler : Filler gap
  opens : ∃ c rest, gap = c :: rest ∧ isBlank c = true

theorem separator_blank : Separator [' '] :=
  ⟨.blank (by decide) .nil, ' ', [], rfl, by decide⟩

/-- A text in front of which a separator stands is set off. -/
theorem Separator.setsOff {gap : List Char} (separator : Separator gap) (text : List Char) :
    SetsOff (gap ++ text) := by
  obtain ⟨c, rest, rfl, blank⟩ := separator.opens
  exact setsOff_cons blank _

theorem munched_blank (blank : isBlank c = true) (text : List Char) : Munched text ⟨.gap, [c]⟩ := by
  obtain ⟨notEqualable, notSlash⟩ := not_mem_equalables_of_blank blank
  refine .longest (.blank blank) ?_
  refine longest_of_sign (opening_of_blank blank) rfl (List.cons_ne_nil _ _) ?_ ?_
  · intro _ equalable
    exact absurd equalable notEqualable
  · intro _ slash
    exact absurd slash notSlash

/-- A comment is cut off at the end of its line, where a longer one would not be one.  A shorter one
would not be the longest. -/
theorem munched_comment {body : List Char} (inLine : '\n' ∉ body) (text : List Char) :
    Munched ('\n' :: text) ⟨.gap, '/' :: '/' :: body⟩ := by
  refine .longest (.comment inLine) ?_
  refine longest_of_sign rfl rfl (List.cons_ne_nil _ _) ?_ ?_
  · intro _ equalable
    exact absurd equalable (by decide)
  · intro other _ inLine' here
    have here : other <+: body ++ '\n' :: text := (List.cons_prefix_cons.mp here).2
    rcases List.prefix_or_prefix_of_prefix here (List.prefix_append body ('\n' :: text)) with
      within | beyond
    · simpa using within.length_le
    · obtain ⟨further, rfl⟩ := beyond
      rw [List.prefix_append_right_inj] at here
      cases further with
      | nil => simp
      | cons c further =>
        obtain ⟨rfl, -⟩ := List.cons_prefix_cons.mp here
        exact absurd (by simp) inLine'

/-- Blanks and comments in front of a text are gaps in front of its pieces.  The induction is on the
filler, from its last gap to the first. -/
theorem Filler.munches (filled : Filler filler) {pieces : List Piece}
    (munches : Munches text pieces) :
    ∃ gaps : List Piece, (∀ gap ∈ gaps, gap.role = .gap) ∧
      Munches (filler ++ text) (gaps ++ pieces) := by
  induction filled with
  | nil => exact ⟨[], by simp, munches⟩
  | @blank c rest blank _ ih =>
    obtain ⟨gaps, each, behind⟩ := ih
    refine ⟨⟨.gap, [c]⟩ :: gaps, ?_, .cons (munched_blank blank _) behind⟩
    simpa using each
  | @comment body rest inLine _ ih =>
    obtain ⟨gaps, each, behind⟩ := ih
    have ended : Munches ('\n' :: (rest ++ text)) (lineEnd :: (gaps ++ pieces)) :=
      .cons (munched_lineEnd _) behind
    refine ⟨⟨.gap, '/' :: '/' :: body⟩ :: lineEnd :: gaps, ?_, ?_⟩
    · simpa [lineEnd] using each
    · simpa using Munches.cons (munched_comment inLine _) ended

end Piece

/-! ### Tokens without their lines -/

/-- A token without its line. -/
def Token.content (t : Token) : Token.Kind × String × Constant :=
  (t.kind, t.lexeme, t.literal)

namespace Piece

/-- The token that a piece is, if it is one. -/
def content? (piece : Piece) : Option (Token.Kind × String × Constant) :=
  match piece.role with
  | .token kind literal => some (kind, String.ofList piece.chars, literal)
  | _ => none

/-- A piece on which nothing is reported. -/
def Fine (piece : Piece) : Prop :=
  piece.role ≠ .unexpected ∧ piece.role ≠ .unterminated

theorem content?_gap {piece : Piece} (gap : piece.role = .gap) : piece.content? = none := by
  unfold content?
  rw [gap]

theorem fine_gap {piece : Piece} (gap : piece.role = .gap) : piece.Fine := by
  constructor <;> rw [gap] <;> exact nofun

end Piece

namespace Scan

/-- The spellings of the tokens. -/
def lexemes (s : Scan) : List String :=
  s.tokens.toList.map Token.lexeme

/-- The tokens, with the one that stands behind the last, without their lines. -/
def contents (s : Scan) : List (Token.Kind × String × Constant) :=
  (s.tokens.toList ++ [s.ending]).map Token.content

variable {s : Scan} {text : String}

theorem contents_eq (s : Scan) :
    s.contents = s.tokens.toList.map Token.content ++ [(.endOfText, "", .nil)] :=
  List.map_append

theorem content_add (s : Scan) (piece : Piece) :
    (s.add piece).tokens.toList.map Token.content =
      s.tokens.toList.map Token.content ++ piece.content?.toList := by
  obtain ⟨role, chars⟩ := piece
  cases role <;> simp [add, Piece.content?, Token.content]

theorem reports_add {piece : Piece} (fine : piece.Fine) : (s.add piece).reports = s.reports := by
  obtain ⟨role, chars⟩ := piece
  cases role with
  | token | gap => rfl
  | unexpected => exact absurd rfl fine.1
  | unterminated => exact absurd rfl fine.2

/-- The tokens of a scan are the pieces that are tokens. -/
theorem content_foldl (pieces : List Piece) (s : Scan) :
    (pieces.foldl add s).tokens.toList.map Token.content =
      s.tokens.toList.map Token.content ++ pieces.filterMap Piece.content? := by
  induction pieces generalizing s with
  | nil => simp
  | cons piece rest ih =>
    rw [List.foldl_cons, ih, content_add, List.append_assoc, List.filterMap_cons]
    cases piece.content? <;> simp

theorem reports_foldl {pieces : List Piece} (fine : ∀ piece ∈ pieces, piece.Fine) (s : Scan) :
    (pieces.foldl add s).reports = s.reports := by
  induction pieces generalizing s with
  | nil => rfl
  | cons piece rest ih =>
    rw [List.foldl_cons, ih (fun other mem => fine other (List.mem_cons_of_mem _ mem)),
      reports_add (fine piece List.mem_cons_self)]

/-- A text that is cut into pieces of which nothing is to be reported. -/
theorem ofText_of_munches {pieces : List Piece} (munches : Piece.Munches text.toList pieces)
    (fine : ∀ piece ∈ pieces, piece.Fine) :
    (ofText text).reports = #[] ∧ (ofText text).contents =
      pieces.filterMap Piece.content? ++ [(.endOfText, "", .nil)] := by
  obtain rfl := Piece.munches_iff.mp munches
  refine ⟨reports_foldl fine {}, ?_⟩
  rw [contents_eq]
  exact congrArg (· ++ _) (content_foldl _ {})

/-- Every token of a text is spelled by the lexical grammar.  It comes from a piece that the rule
has cut off, and the form of such a piece is that of a token. -/
theorem spells_of_mem {t : Token} (mem : t ∈ (ofText text).tokens.toList) :
    Token.Spells t.kind t.literal t.lexeme.toList := by
  have there : t.content ∈ (Piece.split text.toList).filterMap Piece.content? := by
    have same := content_foldl (Piece.split text.toList) {}
    rw [List.map_nil, List.nil_append] at same
    rw [← same]
    exact List.mem_map_of_mem mem
  obtain ⟨piece, inPieces, found⟩ := List.mem_filterMap.mp there
  obtain ⟨earlier, later, split⟩ := List.append_of_mem inPieces
  have munches : Piece.Munches text.toList (Piece.split text.toList) := Piece.munches_iff.mpr rfl
  have munched := munches.each earlier piece later split
  cases munched with
  | longest form =>
    cases form with
    | token spells =>
      simp only [Piece.content?, Token.content, Option.some.injEq, Prod.mk.injEq] at found
      obtain ⟨rfl, lexeme, rfl⟩ := found
      simpa [← lexeme] using spells
    | blank | comment => cases found
  | unexpected | unterminated => cases found

end Scan

/-! ### Spellings with separators between them -/

/-- A text that is made of spellings with separators between them. -/
inductive Spaced : List String → List Char → Prop
  | none : Spaced [] []
  | one (lexeme : String) : Spaced [lexeme] lexeme.toList
  | more {lexeme next : String} {others : List String} {gap text : List Char}
      (separator : Piece.Separator gap) (rest : Spaced (next :: others) text) :
      Spaced (lexeme :: next :: others) (lexeme.toList ++ (gap ++ text))

/-- Single blanks will do. -/
theorem spaced_intercalate : ∀ lexemes : List String,
    Spaced lexemes (" ".intercalate lexemes).toList
  | [] => .none
  | [lexeme] => by simpa using Spaced.one lexeme
  | lexeme :: next :: others => by
    have rest := spaced_intercalate (next :: others)
    simpa using @Spaced.more lexeme _ _ _ _ Piece.separator_blank rest

/-- The spellings of tokens are cut into those tokens and gaps.  Each separator sets off the token
in front of it, and leaves the one behind it to be cut off on its own. -/
theorem Spaced.munches {tokens : List Token} {text : List Char}
    (spaced : Spaced (tokens.map Token.lexeme) text)
    (spells : ∀ t ∈ tokens, Token.Spells t.kind t.literal t.lexeme.toList) :
    ∃ pieces, Piece.Munches text pieces ∧ (∀ piece ∈ pieces, piece.Fine) ∧
      pieces.filterMap Piece.content? = tokens.map Token.content := by
  induction tokens generalizing text with
  | nil =>
    cases spaced
    exact ⟨[], .nil, by simp, rfl⟩
  | cons t tokens ih =>
    have here := spells t List.mem_cons_self
    have fine : Piece.Fine ⟨.token t.kind t.literal, t.lexeme.toList⟩ := ⟨nofun, nofun⟩
    have content : Piece.content? ⟨.token t.kind t.literal, t.lexeme.toList⟩ = some t.content := by
      simp [Piece.content?, Token.content]
    cases tokens with
    | nil =>
      cases spaced
      refine ⟨[⟨.token t.kind t.literal, t.lexeme.toList⟩], ?_, ?_, ?_⟩
      · simpa using Piece.Munches.cons (Piece.munched_of_spells here Piece.setsOff_nil) .nil
      · simpa using fine
      · simp [content]
    | cons next tokens =>
      cases spaced with
      | @more _ _ _ gap text separator rest =>
        obtain ⟨pieces, munches, fines, contents⟩ :=
          ih rest fun other mem => spells other (List.mem_cons_of_mem _ mem)
        obtain ⟨gaps, each, behind⟩ := separator.filler.munches munches
        have sets := separator.setsOff text
        refine ⟨⟨.token t.kind t.literal, t.lexeme.toList⟩ :: (gaps ++ pieces),
          .cons (Piece.munched_of_spells here sets) behind, ?_, ?_⟩
        · intro piece mem
          rcases List.mem_cons.mp mem with rfl | mem
          · exact fine
          · rcases List.mem_append.mp mem with mem | mem
            · exact Piece.fine_gap (each piece mem)
            · exact fines piece mem
        · have skipped : gaps.filterMap Piece.content? = [] :=
            List.filterMap_eq_nil_iff.mpr fun gap mem => Piece.content?_gap (each gap mem)
          simp [content, skipped, contents]

namespace Scan

/-- The spellings of the tokens of a text, with separators between them, scan as those tokens. -/
theorem ofText_of_spaced {text joined : String}
    (spaced : Spaced (ofText text).lexemes joined.toList) :
    (ofText joined).reports = #[] ∧ (ofText joined).contents = (ofText text).contents := by
  obtain ⟨pieces, munches, fine, content⟩ := spaced.munches fun t mem => spells_of_mem mem
  rw [contents_eq (ofText text), ← content]
  exact ofText_of_munches munches fine

/-- The lexemes of a text, joined by single blanks, scan without a report as the tokens of the text,
apart from their lines.  So they do with any blanks and comments between them, if each comment is
closed by the end of its line and a blank or the end of a line comes first. -/
theorem lexemes_rescan (text : String) :
    ((ofText (" ".intercalate (ofText text).lexemes)).reports = #[] ∧
      (ofText (" ".intercalate (ofText text).lexemes)).contents = (ofText text).contents) ∧
    ∀ joined : String, Spaced (ofText text).lexemes joined.toList →
      (ofText joined).reports = #[] ∧ (ofText joined).contents = (ofText text).contents := by
  constructor
  · exact ofText_of_spaced (spaced_intercalate _)
  · intro joined spaced
    exact ofText_of_spaced spaced

/-- A number in front of a dot, a string of two lines with the mark of a comment in it, two signs
that stand together, and a character that belongs nowhere: its lexemes with a comment between the
first two. -/
theorem lexemes_rescan_commented :
    Spaced (ofText "1.@\"a//b\n\"<==").lexemes "1\n// c\n. \"a//b\n\" <=\t=".toList ∧
      (ofText "1\n// c\n. \"a//b\n\" <=\t=").reports = #[] ∧
      (ofText "1\n// c\n. \"a//b\n\" <=\t=").contents = (ofText "1.@\"a//b\n\"<==").contents := by
  have lexemes : (ofText "1.@\"a//b\n\"<==").lexemes = ["1", ".", "\"a//b\n\"", "<=", "="] := by
    decide +kernel
  have spaced : Spaced ["1", ".", "\"a//b\n\"", "<=", "="]
      "1\n// c\n. \"a//b\n\" <=\t=".toList := by
    have commented : Piece.Separator ['\n', '/', '/', ' ', 'c', '\n'] :=
      ⟨.blank (by decide) (@Piece.Filler.comment [' ', 'c'] [] (by decide) .nil), _, _, rfl, by decide⟩
    have tabbed : Piece.Separator ['\t'] := ⟨.blank (by decide) .nil, _, _, rfl, by decide⟩
    exact .more commented (.more Piece.separator_blank (.more Piece.separator_blank
      (.more tabbed (.one "="))))
  rw [← lexemes] at spaced
  exact ⟨spaced, (lexemes_rescan _).2 _ spaced⟩

end Scan
end Arbor
