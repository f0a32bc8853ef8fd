import Arbor.Proofs.Program.Relined
import Arbor.Proofs.Token.Munch

/-!
# Texts one behind the other

The end of a line ends every piece except a string.  So if a text ends in no open string, a further
line behind it leaves its pieces as they are, and the pieces of the two texts are those of the whole,
with a gap between them.  The tokens and reports of the second text are found again, on later lines.

## Main definitions

* `lineBehind`: where a line of a text is found behind another text.
* `Scan.behind`: the scan of a text behind another one.

## Main statements

* `Piece.split_line_append`: the pieces of two texts with a line end between them.
* `Scan.ofText_line_append`: so for scans.
-/

namespace Arbor

namespace Piece

open Token (Spells)

variable {after text : List Char} {piece other : Piece}

/-- The end of a line as a piece. -/
def lineEnd : Piece :=
  ⟨.gap, ['\n']⟩

/-- A string that spans lines is the only token that does: signs and keywords are known by their
spellings, and the characters of names and numbers are of kinds to which no line end belongs. -/
theorem exists_body_of_newline {kind : Token.Kind} {literal : Constant} {chars : List Char}
    (spells : Spells kind literal chars) (newline : '\n' ∈ chars) :
    ∃ body, chars = '"' :: (body ++ ['"']) ∧ '"' ∉ body := by
  have digit {digits : List Char} (each : ∀ c ∈ digits, isDigit c = true) : '\n' ∉ digits :=
    fun mem => absurd (each _ mem) (by decide)
  cases spells with
  | sign sign =>
    have inLine : ∀ kind ∈ Token.Kind.signs, '\n' ∉ kind.name.toList := by decide
    exact absurd newline (inLine kind sign)
  | keyword keyword =>
    have inLine : ∀ kind ∈ Token.Kind.keywords, '\n' ∉ kind.name.toList := by decide
    exact absurd newline (inLine kind keyword)
  | identifier letter others =>
    rcases List.mem_cons.mp newline with rfl | mem
    · exact absurd letter (by decide)
    · exact absurd (others _ mem) (by decide)
  | whole _ each => exact absurd newline (digit each)
  | fraction _ each _ eachFurther =>
    rcases List.mem_append.mp newline with mem | mem
    · exact absurd mem (digit each)
    · rcases List.mem_cons.mp mem with point | mem
      · cases point
      · exact absurd mem (digit eachFurther)
  | string unquoted => exact ⟨_, rfl, unquoted⟩

/-- At the same place there is only one string, the one that ends at the next quotation mark. -/
theorem string_unique {body body' rest rest' : List Char} (unquoted : '"' ∉ body)
    (unquoted' : '"' ∉ body') (same : body ++ '"' :: rest = body' ++ '"' :: rest') :
    body = body' := by
  have front {body : List Char} (unquoted : '"' ∉ body) (rest : List Char) :
      (body ++ '"' :: rest).takeWhile (· != '"') = body := by
    have passes : ∀ c ∈ body, (c != '"') = true :=
      fun c mem => bne_iff_ne.mpr fun same => unquoted (same ▸ mem)
    rw [List.takeWhile_append_of_pos passes]
    simp
  rw [← front unquoted rest, same, front unquoted' rest']

/-- A form that goes beyond the end of a line is a string.  A blank ends before it, since it is a
single character, and a comment does by its form. -/
theorem Form.within_or_string {line : List Char} (form : other.Form) (some : line ≠ [])
    (here : other.chars <+: line ++ '\n' :: text) :
    other.chars <+: line ∨ ∃ body, other.chars = '"' :: (body ++ ['"']) ∧ '"' ∉ body := by
  rcases List.prefix_or_prefix_of_prefix here (List.prefix_append line ('\n' :: text)) with
    within | ⟨further, same⟩
  · exact .inl within
  · rw [← same, List.prefix_append_right_inj] at here
    rcases List.prefix_cons_iff.mp here with rfl | ⟨more, rfl, -⟩
    · rw [List.append_nil] at same
      exact .inl (same ▸ List.prefix_refl _)
    · have newline : '\n' ∈ other.chars := by
        rw [← same]
        exact List.mem_append_right _ List.mem_cons_self
      cases form with
      | token spells => exact .inr (exists_body_of_newline spells newline)
      | blank =>
        -- a blank is one character, and the line has at least one in front of its end
        have length := congrArg List.length same
        have positive := List.length_pos_iff.mpr some
        rw [List.length_append] at length
        simp only [List.length_cons, List.length_nil] at length
        omega
      | comment inLine =>
        simp only [List.mem_cons] at newline
        rcases newline with slash | slash | mem
        · cases slash
        · cases slash
        · exact absurd mem inLine

/-- What is cut off in front of the end of a text is cut off if another line follows.  Only a string
could be longer there, and that is closed already. -/
theorem Munched.line_append (munched : Munched after piece) (closed : piece.role ≠ .unterminated)
    (text : List Char) : Munched (after ++ '\n' :: text) piece := by
  cases munched with
  | unterminated => exact absurd rfl closed
  | @unexpected c notQuote none =>
    refine .unexpected notQuote fun other form here => ?_
    rcases form.within_or_string (List.cons_ne_nil c after) here with within | ⟨body, string, -⟩
    · exact none other form within
    · rw [string] at here
      exact notQuote (List.cons_prefix_cons.mp here).1.symm
  | longest form longest =>
    refine .longest form fun other form' here => ?_
    obtain ⟨c, rest, spelled⟩ := form.exists_cons
    have some : piece.chars ++ after ≠ [] := by
      rw [spelled]
      exact List.cons_ne_nil _ _
    rw [← List.append_assoc] at here
    rcases form'.within_or_string some here with within | ⟨body, string, unquoted⟩
    · exact longest other form' within
    · -- the piece begins with the same quote, so it is the same string
      rw [string, spelled] at here
      obtain ⟨rfl, further⟩ := List.cons_prefix_cons.mp here
      obtain ⟨_, _, spells⟩ := form.spells spelled (by decide)
      cases spells.begins with
      | word opening | number opening | sign opening => cases opening
      | @string body' _ whole unquoted' =>
        subst whole
        obtain ⟨beyond, same⟩ := further
        rw [string, spelled, string_unique unquoted unquoted' (by simpa using same)]

theorem munched_lineEnd (text : List Char) : Munched text lineEnd :=
  munched_front '\n' text

/-- A further line leaves the pieces of a text as they are, if it ends in no open string.  No other
piece can reach over the end of a line, so that the cuts are the same. -/
theorem Munches.line_append {pieces later : List Piece} {text' : List Char}
    (munches : Munches text pieces) (closed : ∀ piece ∈ pieces, piece.role ≠ .unterminated)
    (further : Munches text' later) :
    Munches (text ++ '\n' :: text') (pieces ++ lineEnd :: later) := by
  induction pieces generalizing text with
  | nil =>
    rw [← munches.whole]
    exact .cons (munched_lineEnd text') further
  | cons piece rest ih =>
    obtain ⟨munched, munches'⟩ := munches.tail
    have others := ih munches' fun other mem => closed other (List.mem_cons_of_mem _ mem)
    have first := munched.line_append (closed piece List.mem_cons_self) text'
    rw [← munches.whole, List.flatMap_cons, List.append_assoc]
    exact .cons first others

/-- The pieces of two texts with a line end between them. -/
theorem split_line_append (closed : ∀ piece ∈ split text, piece.role ≠ .unterminated)
    (text' : List Char) : split (text ++ '\n' :: text') = split text ++ lineEnd :: split text' := by
  have first : Munches text (split text) := munches_iff.mpr rfl
  have second : Munches text' (split text') := munches_iff.mpr rfl
  exact (munches_iff.mp (first.line_append closed second)).symm

end Piece

/-! ### Scans -/

/-- Where a line of a text is found behind another text and the end of its last line. -/
def lineBehind (first : String) (line : Int) : Int :=
  line + (1 + (first.toList.count '\n' : Int))

namespace Scan

/-- The scan of a text behind another one, which begins on the line that the other one has
reached. -/
def behind (first second : Scan) : Scan where
  tokens := first.tokens ++ second.tokens.map (Token.relined (· + (first.line - 1)))
  reports := first.reports ++ second.reports.map (Diagnostic.relined (· + (first.line - 1)))
  line := second.line + (first.line - 1)

/-- A piece is added to a scan behind another one as it is added to the scan alone. -/
theorem behind_add (first second : Scan) (piece : Piece) :
    (first.behind second).add piece = first.behind (second.add piece) := by
  have line : second.line + (first.line - 1) + (piece.chars.count '\n' : Int) =
      second.line + (piece.chars.count '\n' : Int) + (first.line - 1) := Int.add_right_comm _ _ _
  obtain ⟨role, chars⟩ := piece
  cases role with
  | gap =>
    simp only [add, behind]
    rw [line]
  | token | unexpected | unterminated =>
    simp only [add, behind]
    rw [line, Array.map_push, Array.append_push]
    rfl

theorem foldl_add_behind (first second : Scan) (pieces : List Piece) :
    pieces.foldl add (first.behind second) = first.behind (pieces.foldl add second) := by
  induction pieces generalizing second with
  | nil => rfl
  | cons piece rest ih => rw [List.foldl_cons, List.foldl_cons, behind_add, ih]

/-- Behind another text a scan begins on the line that is reached. -/
theorem behind_start (first : Scan) : first.behind {} = first := by
  have line : (1 : Int) + (first.line - 1) = first.line := by omega
  unfold behind
  rw [Array.map_empty, Array.map_empty, Array.append_empty, Array.append_empty, line]

/-- A text on which nothing is reported ends in no open string.  The report on such a string would
be the last one. -/
theorem closed_of_silent {text : String} (silent : (ofText text).reports = #[]) :
    ∀ piece ∈ Piece.split text.toList, piece.role ≠ .unterminated := by
  intro piece mem role
  obtain ⟨earlier, later, split⟩ := List.append_of_mem mem
  have reports := (readOff_foldl (Piece.split text.toList)).reports
  change (ofText text).reports.toList = _ at reports
  rw [silent, split] at reports
  have none := List.filterMap_eq_nil_iff.mp reports.symm (earlier ++ [piece]) (by simp)
  obtain ⟨_, chars⟩ := piece
  cases role
  rw [Piece.lastReport?, List.getLast?_concat] at none
  cases none

/-- The line that is reached with a text. -/
theorem line_ofText (text : String) : (ofText text).line = lineAt text.toList := by
  have line := (readOff_foldl (Piece.split text.toList)).line
  rwa [Piece.flatMap_chars_split] at line

theorem line_add_lineEnd (text : String) (line : Int) :
    line + (((ofText text).add Piece.lineEnd).line - 1) = lineBehind text line := by
  change line + ((ofText text).line + ((['\n'] : List Char).count '\n' : Int) - 1) = _
  rw [line_ofText, lineAt, lineBehind, List.count_singleton_self]
  omega

/-- The scan of two texts with a line end between them, if nothing is reported on the first one.
Without a report its last string is closed, so nothing of the first text runs into the second. -/
theorem ofText_line_append {first : String} (silent : (ofText first).reports = #[])
    (second : String) : ofText (first ++ "\n" ++ second) =
      ⟨(ofText first).tokens ++ (ofText second).tokens.map (Token.relined (lineBehind first)),
        (ofText second).reports.map (Diagnostic.relined (lineBehind first)),
        lineBehind first (ofText second).line⟩ := by
  have whole : (first ++ "\n" ++ second).toList = first.toList ++ '\n' :: second.toList := by
    simp
  have pieces := Piece.split_line_append (closed_of_silent silent) second.toList
  have behind : ofText (first ++ "\n" ++ second) =
      ((ofText first).add Piece.lineEnd).behind (ofText second) := by
    unfold ofText
    rw [whole, pieces, List.foldl_append, List.foldl_cons, ← foldl_add_behind, behind_start]
  rw [behind, Scan.behind]
  simp only [line_add_lineEnd]
  change Scan.mk _ ((ofText first).reports ++ _) _ = _
  rw [silent, Array.empty_append]
  rfl

end Scan
end Arbor
