import Arbor.Proofs.Grammar.Acceptance
import Arbor.Proofs.Grammar.LocalStatements
import Arbor.Proofs.Token.Concatenation

/-!
# Programs one behind the other

A program that is read without a report is read in the same way if another one follows, unless that
begins with an `else`, which the last statement might take.  The other one is read as if it stood
alone, errors included.  So programs can be put one behind the other.

An error in a statement between them costs that statement and nothing else, provided that recovery
finds its end.  Recovery looks for a semicolon or for the next word that begins a statement; in a
statement that ends in its only semicolon and has no such word inside, that end is the first boundary
there is, wherever the error was met.

## Main definitions

* `Grammar.BrokenStatement`: tokens with an error that recovery gets over.

## Main statements

* `Program.ofTokens_append`: programs one behind the other.
* `Program.silent_text_composes`: so for texts, on lines of their own.
* `Program.ofTokens_broken_append`: a broken statement in front of a program.
* `Program.broken_statement_costs_itself`: a broken statement between two programs.
-/

namespace Arbor
namespace Grammar

open Stateful

/-! ### Rounds of the loop over declarations -/

section Rounds

variable {room fuel : Nat} {before : List Stmt} {s s₁ : State}

theorem run_topLevel_nil (empty : s.rest = []) :
    (topLevel room fuel before).run s = .ok before.reverse s := by
  cases fuel with
  | zero => rfl
  | succ fuel =>
    rw [run_topLevel, empty]
    rfl

theorem run_topLevel_cons (tokens : s.rest ≠ []) : (topLevel room (fuel + 1) before).run s =
    (tryCatch (some <$> declaration room) (fun _ => pure none) >>=
      topLevelNext room fuel before).run s := by
  rw [run_topLevel, if_neg]
  exact fun empty => tokens (List.isEmpty_iff.mp empty)

/-- A round at the top level: one declaration is read, and added if it came to something.  Nothing
is caught in such a round, since nothing was thrown. -/
theorem run_topLevel_ok {st? : Option Stmt} (tokens : s.rest ≠ [])
    (ran : (declaration room).run s = .ok st? s₁) :
    (topLevel room (fuel + 1) before).run s =
      (topLevel room fuel (st?.toList ++ before)).run s₁ := by
  have caught : (tryCatch (some <$> declaration room) (fun _ => pure none) :
      Parser (Option (Option Stmt))).run s = .ok (some st?) s₁ := by
    have inner : (some <$> declaration room) s = .ok (some st?) s₁ := run_map_ok.mpr ⟨st?, ran, rfl⟩
    change EStateM.tryCatch (some <$> declaration room) _ s = _
    unfold EStateM.tryCatch
    rw [inner]
  rw [run_topLevel_cons tokens, EStateM.run_bind, caught]
  cases st? <;> rfl

/-- Only too deep a nesting is not recovered from, and it ends the program with a report at the
token where the rules nest too deep. -/
theorem run_topLevel_error {stop : Stop} (tokens : s.rest ≠ [])
    (ran : (declaration room).run s = .error stop s₁) :
    (topLevel room (fuel + 1) before).run s = .ok before.reverse
      { s₁ with reports := s₁.reports.push (.grammar s₁.current .tooDeep) } := by
  have caught : (tryCatch (some <$> declaration room) (fun _ => pure none) :
      Parser (Option (Option Stmt))).run s = .ok none s₁ := by
    have inner : (some <$> declaration room) s = .error stop s₁ := run_map_error some ran
    change EStateM.tryCatch (some <$> declaration room) _ s = _
    unfold EStateM.tryCatch
    rw [inner]
    rfl
  rw [run_topLevel_cons tokens, EStateM.run_bind, caught]
  rfl

theorem reverse_toList_append {α : Type} (a? : Option α) (before : List α) :
    (a?.toList ++ before).reverse = before.reverse ++ a?.toList := by
  cases a? with
  | none => exact (List.append_nil _).symm
  | some a => exact List.reverse_cons

end Rounds

/-! ### Programs in a larger text -/

section Embedded

variable {c : Context} {room fuel fuel' : Nat} {s : State}

/-- The last program of a larger text is read as it is alone, reports included.  The induction is on
the rounds, of which there are as many in both texts: the last one ends at the end of both. -/
theorem topLevel_embedded {before body : List Stmt} {final : State} (fits : c.Fits s)
    (fuels : c.Fuels s fuel fuel') (ends : c.Ends s)
    (ran : (topLevel room fuel before).run s = .ok body final) :
    ∃ new, body = before.reverse ++ new ∧ ∀ before' : List Stmt,
      (topLevel room fuel' before').run (c.embed s) =
        .ok (before'.reverse ++ new.map (Stmt.relined c.line)) (c.embed final) := by
  induction fuels using Context.Fuels.induction generalizing before with
  | @atEnd fuel fuel' s _ empty =>
    rw [run_topLevel_nil empty] at ran
    cases ran
    refine ⟨[], (List.append_nil _).symm, fun before' => ?_⟩
    rw [List.map_nil, List.append_nil]
    refine run_topLevel_nil ?_
    unfold Context.embed
    rw [empty, ends.1]
    rfl
  | @round fuel fuel' s _ tokens ih =>
    have tokens' := Context.rest_embed_ne_nil (c := c) tokens
    have alike := (LocalStmts.all c room).declaration s fits tokens
    cases read : (declaration room).run s with
    | ok st? s₁ =>
      obtain ⟨onward, less, same⟩ := alike.of_ok read
      have ends₁ := ends.onward onward
      rw [run_topLevel_ok tokens read] at ran
      obtain ⟨new, rfl, later⟩ := ih (less trivial) (fits.onward onward) ends₁ ran
      refine ⟨st?.toList ++ new, ?_, fun before' => ?_⟩
      · rw [reverse_toList_append, List.append_assoc]
      · rw [run_topLevel_ok tokens' (same (.inl (.inr ends₁))), later, reverse_toList_append,
          List.append_assoc, List.map_append]
        cases st? <;> rfl
    | error stop s₁ =>
      obtain ⟨onward, same⟩ := alike.of_error read
      have sees : c.Sees s₁ := .inr (ends.onward onward)
      rw [run_topLevel_error tokens read] at ran
      cases ran
      refine ⟨[], (List.append_nil _).symm, fun before' => ?_⟩
      rw [run_topLevel_error tokens' (same sees), Context.embed_report, Context.current_embed sees,
        List.map_nil, List.append_nil]

/-- A declaration that came to something was read without an error: an error would have left nothing
but a report. -/
theorem run_of_recovering {body : Parser Stmt} {s s' : State} {st : Stmt}
    (ran : (recovering body).run s = .ok (some st) s') : body.run s = .ok st s' := by
  cases read : body.run s with
  | ok st' s₁ =>
    rw [run_recovering_ok read] at ran
    cases ran
    rfl
  | error stop s₁ =>
    cases stop with
    | error =>
      rw [run_recovering_error read] at ran
      cases ran
    | tooDeep =>
      rw [run_recovering_tooDeep read] at ran
      cases ran

/-- A declaration that is read without a report is read alike if no `else` follows.  Without a
report there was no recovery, which is where what follows might have been dropped. -/
theorem declaration_embedded {st? : Option Stmt} {s₁ : State} (fits : c.Fits s)
    (noElse : NoElse c.more) (read : (declaration room).run s = .ok st? s₁)
    (silent : s₁.reports.size = s.reports.size) :
    Onward s s₁ ∧ s₁.rest.length < s.rest.length ∧ ∃ st, st? = some st ∧
      (declaration room).run (c.embed s) = .ok (some (st.relined c.line)) (c.embed s₁) := by
  obtain ⟨onward, explained⟩ := ((ExplainsStmts.all room).declaration s fits.ready).of_ok read
  obtain ⟨used, -, st, rfl, -⟩ := explained silent
  cases room with
  | zero => cases read
  | succ room =>
    rw [declaration_succ] at read ⊢
    have declared := run_of_recovering read
    obtain ⟨-, less, same⟩ := (local_declared room s fits).of_ok declared
    exact ⟨onward, less trivial, st, rfl, run_recovering_ok (same (.inr noElse))⟩

/-- What is read without a report is read alike if no `else` follows, and then what follows is read.
Without a report every declaration ended at its own last token, and only for an `else` would it have
looked at the token behind it. -/
theorem topLevel_silent {before body : List Stmt} {final : State} (fits : c.Fits s)
    (fuels : c.Fuels s fuel fuel') (noElse : NoElse c.more)
    (ran : (topLevel room fuel before).run s = .ok body final)
    (silent : final.reports.size = s.reports.size) :
    final.rest = [] ∧ ∃ new left, body = before.reverse ++ new ∧ c.more.length ≤ left ∧
      ∀ before' : List Stmt, (topLevel room fuel' before').run (c.embed s) =
        (topLevel room left ((new.map (Stmt.relined c.line)).reverse ++ before')).run
          (c.embed final) := by
  induction fuels using Context.Fuels.induction generalizing before with
  | @atEnd fuel fuel' s fuels empty =>
    rw [run_topLevel_nil empty] at ran
    cases ran
    refine ⟨empty, [], fuel', (List.append_nil _).symm, ?_, fun _ => rfl⟩
    exact Nat.le_trans (Nat.le_add_left _ _) fuels.embedded
  | @round fuel fuel' s _ tokens ih =>
    have tokens' := Context.rest_embed_ne_nil (c := c) tokens
    cases read : (declaration room).run s with
    | ok st? s₁ =>
      obtain ⟨onward, -⟩ := ((ExplainsStmts.all room).declaration s fits.ready).of_ok read
      rw [run_topLevel_ok tokens read] at ran
      -- reports only grow, so the declaration is silent if the program is
      obtain ⟨further, -⟩ := (explains_topLevel room fuel _ s₁ (onward.ready fits.ready)).of_ok ran
      have some := onward.reports
      have more := further.reports
      obtain ⟨-, less, st, rfl, same⟩ := declaration_embedded fits noElse read (by omega)
      obtain ⟨empty, new, left, rfl, enough, later⟩ :=
        ih less (fits.onward onward) ran (by omega)
      refine ⟨empty, st :: new, left, ?_, enough, fun before' => ?_⟩
      · rw [reverse_toList_append, List.append_assoc]
        rfl
      · rw [run_topLevel_ok tokens' same, later, List.map_cons, List.reverse_cons, List.append_assoc]
        rfl
    | error stop s₁ =>
      obtain ⟨onward, -⟩ := ((ExplainsStmts.all room).declaration s fits.ready).of_error read
      rw [run_topLevel_error tokens read] at ran
      cases ran
      have grows := onward.reports
      rw [Array.size_push] at silent
      omega

end Embedded

/-! ### Broken statements -/

/-- Whether reading a declaration from some tokens fails in front of one of them. -/
def failsWithin (room : Nat) (tokens : List Token) (ending : Token) : Bool :=
  match (declared room).run { rest := tokens, ending, bound := tokens.length } with
  | .error .error s => !s.rest.isEmpty
  | _ => false

theorem exists_run_of_failsWithin {room : Nat} {tokens : List Token} {ending : Token}
    (fails : failsWithin room tokens ending = true) :
    ∃ s, (declared room).run { rest := tokens, ending, bound := tokens.length } =
      .error .error s ∧ s.rest ≠ [] := by
  unfold failsWithin at fails
  split at fails
  · next s ran => exact ⟨s, ran, by simpa using fails⟩
  · cases fails

/-- Tokens with an error that recovery gets over exactly at their end: they end in their only
semicolon, no word inside begins a statement, they do not begin with an `else` that would belong to
what was read before, and the error is met in front of one of them. -/
structure BrokenStatement (room : Nat) (tokens : List Token) (ending : Token) : Prop where
  ends : tokens.getLast?.map Token.kind = some .semicolon
  only : ∀ t ∈ tokens.dropLast, t.kind ≠ .semicolon
  inside : ∀ t ∈ tokens.tail, t.kind.startsStatement = false
  noElse : NoElse tokens
  fails : failsWithin room tokens ending = true

/-- From wherever the error was met, recovery goes to the end of the statement.  There is no
semicolon before that end, and no token inside at which a statement could start. -/
theorem resume_to_end {semicolon : Token} (is : semicolon.kind = .semicolon) {after : List Token} :
    ∀ {front : List Token}, (∀ t ∈ front, t.kind ≠ .semicolon) →
      (∀ t ∈ (front ++ [semicolon]).tail, t.kind.startsStatement = false) →
      resume (front ++ semicolon :: after) = after
  | [], _, _ => by
    rw [List.nil_append, resume, if_pos (.inl is)]
  | t :: front, only, inside => by
    have others : ∀ t ∈ front, t.kind ≠ .semicolon :=
      fun t mem => only t (List.mem_cons_of_mem _ mem)
    have inner : ∀ t ∈ (front ++ [semicolon]).tail, t.kind.startsStatement = false :=
      fun t mem => inside t (List.mem_of_mem_tail mem)
    have next : ((front ++ semicolon :: after).head?.any fun t => t.kind.startsStatement) = false := by
      cases front with
      | nil => exact inside semicolon List.mem_cons_self
      | cons first rest => exact inside first List.mem_cons_self
    rw [List.cons_append, resume, if_neg]
    · exact resume_to_end is others inner
    · rintro (isSemicolon | starts)
      · exact only t List.mem_cons_self isSemicolon
      · rw [next] at starts
        cases starts

/-- The tokens behind the first one of a rest stand behind the first one of the whole. -/
theorem mem_tail_of_suffix {tokens rest : List Token} {t : Token} (remains : rest <:+ tokens)
    (mem : t ∈ rest.tail) : t ∈ tokens.tail := by
  cases tokens with
  | nil =>
    rw [List.eq_nil_of_suffix_nil remains] at mem
    exact mem
  | cons first others =>
    rcases List.suffix_cons_iff.mp remains with rfl | later
    · exact mem
    · exact later.mem (List.mem_of_mem_tail mem)

namespace BrokenStatement

variable {room : Nat} {tokens rest : List Token} {ending : Token}

theorem exists_split (broken : BrokenStatement room tokens ending) : ∃ front semicolon,
    tokens = front ++ [semicolon] ∧ semicolon.kind = .semicolon ∧
      ∀ t ∈ front, t.kind ≠ .semicolon := by
  obtain ⟨semicolon, last, is⟩ := Option.map_eq_some_iff.mp broken.ends
  obtain ⟨front, rfl⟩ := List.getLast?_eq_some_iff.mp last
  refine ⟨front, semicolon, rfl, is, fun t mem => broken.only t ?_⟩
  rw [List.dropLast_concat]
  exact mem

theorem ne_nil (broken : BrokenStatement room tokens ending) : tokens ≠ [] := by
  obtain ⟨front, semicolon, rfl, -⟩ := broken.exists_split
  exact List.append_ne_nil_of_right_ne_nil _ (List.cons_ne_nil _ _)

/-- What remains of a broken statement ends where the statement does. -/
theorem resume_rest (broken : BrokenStatement room tokens ending) (remains : rest <:+ tokens)
    (tokens' : rest ≠ []) (after : List Token) : resume (rest ++ after) = after := by
  obtain ⟨front, semicolon, rfl, is, only⟩ := broken.exists_split
  obtain ⟨front', rfl, remains'⟩ := (List.suffix_concat_iff.mp remains).resolve_left tokens'
  rw [List.append_assoc]
  refine resume_to_end is (fun t mem => only t (remains'.mem mem)) fun t mem => ?_
  exact broken.inside t (mem_tail_of_suffix remains mem)

/-- Wherever a broken statement stands, its error is met in the same place and costs the statement:
reading goes on behind it, with the same reports. -/
theorem exists_run_topLevel (broken : BrokenStatement room tokens ending)
    (ends : ending.kind = .endOfText) : ∃ reports, ∀ (after : List Token) (last : Token),
      ∃ left, after.length ≤ left ∧
        (topLevel (room + 1) (tokens ++ after).length []).run
            ⟨tokens ++ after, last, (tokens ++ after).length, #[]⟩ =
          (topLevel (room + 1) left []).run ⟨after, last, (tokens ++ after).length, reports⟩ := by
  obtain ⟨s, fails, remains⟩ := exists_run_of_failsWithin broken.fails
  refine ⟨s.reports, fun after last => ?_⟩
  have covers : tokens.length + after.length ≤ (tokens ++ after).length :=
    Nat.le_of_eq List.length_append.symm
  have fits := Context.fits_start (c := ⟨id, #[], after, last, (tokens ++ after).length⟩) ends
    broken.ne_nil covers
  obtain ⟨onward, same⟩ := (local_declared room _ fits).of_error fails
  have fails' := same (.inl remains)
  rw [Context.embed_id, Context.embed_id, Array.append_empty, Array.empty_append] at fails'
  have costs : (declaration (room + 1)).run ⟨tokens ++ after, last, (tokens ++ after).length, #[]⟩ =
      .ok none ⟨after, last, (tokens ++ after).length, s.reports⟩ := by
    rw [declaration_succ, run_recovering_error fails']
    unfold State.facing
    rw [broken.resume_rest onward.suffix remains]
  have positive := List.length_pos_iff.mpr broken.ne_nil
  obtain ⟨left, more⟩ := Nat.exists_eq_succ_of_ne_zero (n := (tokens ++ after).length) (by omega)
  refine ⟨left, by omega, ?_⟩
  rw [more] at costs ⊢
  exact run_topLevel_ok (List.append_ne_nil_of_left_ne_nil broken.ne_nil _) costs

end BrokenStatement

end Grammar

namespace Program

open Grammar

variable {room : Nat} {tokens : List Token} {ending : Token}

theorem ofTokens_nil (room : Nat) (ending : Token) : ofTokens room [] ending = ⟨⟨[]⟩, #[]⟩ :=
  rfl

/-- Reading a program is the run of the loop over its declarations. -/
theorem exists_run_topLevel (room : Nat) (tokens : List Token) (ending : Token) : ∃ final,
    (topLevel room tokens.length []).run { rest := tokens, ending, bound := tokens.length } =
      .ok (ofTokens room tokens ending).program.body final ∧
    final.reports = (ofTokens room tokens ending).reports := by
  have returns := topLevel_returns room tokens.length []
    { rest := tokens, ending, bound := tokens.length }
  unfold ofTokens
  dsimp only
  split
  · next body final ran => exact ⟨final, ran, rfl⟩
  · next stop final ran => exact (returns.of_error ran).elim

/-- A program at the end of a larger text is read as it is alone.  The reports that were made before
it stay in front of its own. -/
theorem exists_run_last (line : Int → Int) (ends : ending.kind = .endOfText) {bound fuel : Nat}
    (covers : tokens.length ≤ bound) (enough : tokens.length ≤ fuel) (before : List Stmt)
    (earlier : Array Diagnostic) : ∃ final,
    (topLevel room fuel before).run
        ⟨tokens.map (Token.relined line), ending.relined line, bound, earlier⟩ =
      .ok (before.reverse ++ (ofTokens room tokens ending).program.body.map (Stmt.relined line))
        final ∧
    final.reports = earlier ++ (ofTokens room tokens ending).reports.map (Diagnostic.relined line) := by
  by_cases empty : tokens = []
  · subst empty
    refine ⟨⟨[], ending.relined line, bound, earlier⟩, ?_, ?_⟩
    · rw [ofTokens_nil, List.map_nil, List.map_nil, List.append_nil]
      exact run_topLevel_nil rfl
    · rw [ofTokens_nil, Array.map_empty, Array.append_empty]
  · let c : Context := ⟨line, earlier, [], ending.relined line, bound⟩
    have fits := Context.fits_start (c := c) ends empty covers
    obtain ⟨final, ran, reports⟩ := exists_run_topLevel room tokens ending
    obtain ⟨new, same, later⟩ := topLevel_embedded fits ⟨Nat.le_refl _, enough⟩ ⟨rfl, rfl⟩ ran
    have start : c.embed { rest := tokens, ending, bound := tokens.length } =
        ⟨tokens.map (Token.relined line), ending.relined line, bound, earlier⟩ := by
      unfold Context.embed
      rw [List.append_nil, Array.map_empty, Array.append_empty]
    refine ⟨c.embed final, ?_, ?_⟩
    · rw [← start, same]
      exact later before
    · rw [← reports]
      rfl

/-- Nothing that is read is resolved. -/
theorem relined_ofTokens (room : Nat) (tokens : List Token) (ends : ending.kind = .endOfText) :
    (ofTokens room tokens ending).program.body.map (Stmt.relined id) =
      (ofTokens room tokens ending).program.body := by
  obtain ⟨final, ran, -⟩ := exists_run_topLevel room tokens ending
  obtain ⟨final', ran', -⟩ :=
    @exists_run_last room tokens ending id ends _ _ (Nat.le_refl _) (Nat.le_refl _) [] #[]
  rw [Token.relined_id, List.map_id, List.reverse_nil, List.nil_append] at ran'
  -- one run, as it is and as it is on the same lines
  exact (EStateM.Result.ok.inj (ran'.symm.trans ran)).1

theorem unresolved_ofTokens (room : Nat) (tokens : List Token) (ends : ending.kind = .endOfText) :
    (ofTokens room tokens ending).program.unresolved = (ofTokens room tokens ending).program := by
  have body := relined_ofTokens room tokens ends
  rw [← Stmt.allRelined_eq_map, Stmt.allRelined_id] at body
  exact congrArg Program.mk body

theorem unresolved_ofText (text : String) :
    (ofText text).program.unresolved = (ofText text).program := by
  rw [ofText, Scan.parse]
  exact unresolved_ofTokens Grammar.depthLimit _ rfl

/-- A program that is read without a report is read alike if no `else` follows, and what follows is
read behind it. -/
theorem exists_run_first {more : List Token} (ending' : Token) (ends : ending.kind = .endOfText)
    (silent : (ofTokens room tokens ending).reports = #[]) (noElse : NoElse more) :
    ∃ left, more.length ≤ left ∧
      (topLevel room (tokens ++ more).length []).run
          ⟨tokens ++ more, ending', (tokens ++ more).length, #[]⟩ =
        (topLevel room left (ofTokens room tokens ending).program.body.reverse).run
          ⟨more, ending', (tokens ++ more).length, #[]⟩ := by
  by_cases empty : tokens = []
  · subst empty
    exact ⟨more.length, Nat.le_refl _, rfl⟩
  · have covers : tokens.length + more.length ≤ (tokens ++ more).length :=
      Nat.le_of_eq List.length_append.symm
    have fits := Context.fits_start (c := ⟨id, #[], more, ending', (tokens ++ more).length⟩) ends
      empty covers
    obtain ⟨final, ran, reports⟩ := exists_run_topLevel room tokens ending
    rw [silent] at reports
    obtain ⟨done, new, left, same, enough, later⟩ :=
      topLevel_silent fits ⟨Nat.le_refl _, covers⟩ noElse ran (by rw [reports])
    rw [List.reverse_nil, List.nil_append] at same
    have read := later []
    rw [Context.embed_id, Context.embed_id, done, reports, ← same, relined_ofTokens room tokens ends,
      List.append_nil] at read
    exact ⟨left, enough, read⟩

/-- Programs one behind the other.  The first one is read without a report and is not followed by an
`else`; whatever is reported on the second one is reported, and it may stand on other lines. -/
theorem ofTokens_append (line : Int → Int) {second : List Token} {ending' : Token}
    (ends : ending.kind = .endOfText) (ends' : ending'.kind = .endOfText)
    (silent : (ofTokens room tokens ending).reports = #[]) (noElse : NoElse second) :
    ofTokens room (tokens ++ second.map (Token.relined line)) (ending'.relined line) =
      ⟨⟨(ofTokens room tokens ending).program.body ++
        (ofTokens room second ending').program.body.map (Stmt.relined line)⟩,
      (ofTokens room second ending').reports.map (Diagnostic.relined line)⟩ := by
  have noElse' : NoElse (second.map (Token.relined line)) := by
    intro t mem
    rw [List.head?_map, Option.mem_def, Option.map_eq_some_iff] at mem
    obtain ⟨t, mem, rfl⟩ := mem
    exact noElse t mem
  obtain ⟨left, enough, first⟩ := exists_run_first (ending'.relined line) ends silent noElse'
  rw [List.length_map] at enough
  have covers : second.length ≤ (tokens ++ second.map (Token.relined line)).length := by
    rw [List.length_append, List.length_map]
    exact Nat.le_add_left _ _
  obtain ⟨final, last, reports⟩ := exists_run_last line ends' covers enough
    (ofTokens room tokens ending).program.body.reverse #[]
  rw [ofTokens_of_ok (first.trans last), reports, List.reverse_reverse, Array.empty_append]

/-- What is read from a text without a report is read alike from the text with a further one behind
it, on lines of its own, unless that begins with an `else`.  The further one is read as it is alone,
with whatever is wrong with it, only that its lines come after those of the first one. -/
theorem silent_text_composes {first second : String} (silent : (ofText first).reports = #[])
    (noElse : NoElse (Scan.ofText second).tokens.toList) :
    ofText (first ++ "\n" ++ second) =
      ⟨⟨(ofText first).program.body ++
          (ofText second).program.body.map (Stmt.relined (lineBehind first))⟩,
        (ofText second).reports.map (Diagnostic.relined (lineBehind first))⟩ := by
  obtain ⟨scanned, read⟩ := Array.append_eq_empty_iff.mp silent
  have ends : (Scan.ofText second).ending.kind = .endOfText := rfl
  have appended := ofTokens_append (lineBehind first) rfl ends read noElse
  unfold ofText
  rw [Scan.ofText_line_append scanned]
  unfold Scan.parse
  rw [Array.toList_append, Array.toList_map, Array.map_append]
  change Reading.mk (ofTokens _ _ ((Scan.ofText second).ending.relined (lineBehind first))).program
    (_ ++ (ofTokens _ _ ((Scan.ofText second).ending.relined (lineBehind first))).reports) = _
  rw [appended]

/-- Behind an `if` without an `else`, on two lines, come a character that may not stand there and an
incomplete statement, and a further statement with a text over two lines.  The `if` is read as it is
alone, and what comes behind it is found on the third line and the fifth. -/
theorem silent_if_composes :
    let first := "if (a)\n  print a;"
    let second := "@ print );\nprint \"b;\nc\" + d;"
    (ofText first).reports = #[] ∧ NoElse (Scan.ofText second).tokens.toList ∧
    ofText (first ++ "\n" ++ second) =
      ⟨⟨(ofText first).program.body ++
          (ofText second).program.body.map (Stmt.relined (lineBehind first))⟩,
        (ofText second).reports.map (Diagnostic.relined (lineBehind first))⟩ ∧
    (ofText (first ++ "\n" ++ second)).reports.map Diagnostic.text =
      #["[line 3] Error: Unexpected character.", "[line 3] Error at ')': Expect expression."] ∧
    (match (ofText (first ++ "\n" ++ second)).program.body with
      | [.ifElse (.var a none) (.print (.var a' none)) none,
          .print (.binary (.literal (.text text)) plus (.var d none))] =>
        decide (a.line = 1 ∧ a'.line = 2 ∧ text = "b;\nc" ∧ plus.line = 5 ∧ d.line = 5)
      | _ => false) = true := by
  have none : (ofText "if (a)\n  print a;").reports.isEmpty = true := by
    decide +kernel
  have noElse : NoElse (Scan.ofText "@ print );\nprint \"b;\nc\" + d;").tokens.toList := by
    unfold NoElse
    decide +kernel
  have silent := Array.isEmpty_iff.mp none
  have composes := silent_text_composes silent noElse
  refine ⟨silent, noElse, composes, ?_, ?_⟩
  all_goals
    rw [composes]
    decide +kernel

/-- A broken statement in front of a program costs itself.  Recovery ends behind its semicolon, and
there reading goes on as at the start of the program. -/
theorem ofTokens_broken_append {after : List Token} {ending' : Token}
    (broken : BrokenStatement room tokens ending) (ends : ending.kind = .endOfText)
    (ends' : ending'.kind = .endOfText) :
    ofTokens (room + 1) (tokens ++ after) ending' =
      ⟨(ofTokens (room + 1) after ending').program,
        (ofTokens (room + 1) tokens ending).reports ++
          (ofTokens (room + 1) after ending').reports⟩ := by
  obtain ⟨reports, costs⟩ := broken.exists_run_topLevel ends
  have alone : (ofTokens (room + 1) tokens ending).reports = reports := by
    obtain ⟨left, -, read⟩ := costs [] ending
    rw [List.append_nil] at read
    rw [ofTokens_of_ok (read.trans (run_topLevel_nil rfl))]
  obtain ⟨left, enough, first⟩ := costs after ending'
  have covers : after.length ≤ (tokens ++ after).length := by
    rw [List.length_append]
    exact Nat.le_add_left _ _
  obtain ⟨final, last, reports'⟩ := exists_run_last id ends' covers enough [] reports
  rw [Token.relined_id, List.map_id, relined_ofTokens _ _ ends', List.reverse_nil, List.nil_append]
    at last
  rw [Diagnostic.relined_id, Array.map_id] at reports'
  rw [ofTokens_of_ok (first.trans last), reports', alone]

/-- A broken statement costs exactly itself.  Between a program that is read without a report and any
other tokens, it leaves nothing behind in the program that is read, and what is reported is what is
reported on the statement alone and on the other tokens alone. -/
theorem broken_statement_costs_itself {before broken after : List Token}
    {ending₁ ending₂ ending : Token} (ends₁ : ending₁.kind = .endOfText)
    (ends₂ : ending₂.kind = .endOfText) (ends : ending.kind = .endOfText)
    (silent : (ofTokens (room + 1) before ending₁).reports = #[])
    (breaks : BrokenStatement room broken ending₂) :
    ofTokens (room + 1) (before ++ broken ++ after) ending =
      ⟨⟨(ofTokens (room + 1) before ending₁).program.body ++
          (ofTokens (room + 1) after ending).program.body⟩,
        (ofTokens (room + 1) broken ending₂).reports ++
          (ofTokens (room + 1) after ending).reports⟩ := by
  have noElse : NoElse (broken ++ after) := by
    obtain ⟨first, others, same⟩ := List.exists_cons_of_ne_nil breaks.ne_nil
    have other := breaks.noElse first (by rw [same]; rfl)
    rw [same]
    exact .cons other _
  have whole := ofTokens_append id ends₁ ends silent noElse
  rw [ofTokens_broken_append breaks ends₂ ends, Token.relined_id, List.map_id,
    Diagnostic.relined_id, Array.map_id, relined_ofTokens _ _ ends] at whole
  rw [List.append_assoc]
  exact whole

theorem brokenStatement_print :
    BrokenStatement 20 (Scan.ofText "print );").tokens.toList (.ending 1) where
  ends := by decide +kernel
  only := by decide +kernel
  inside := by decide +kernel
  noElse := by
    unfold NoElse
    decide +kernel
  fails := by decide +kernel

/-- Behind `print a;` the statement `print );` is broken at its parenthesis, and of `print b;` behind
it nothing is lost: the two others are read, and one thing is reported. -/
theorem broken_print_costs_itself :
    let before := (Scan.ofText "print a;").tokens.toList
    let broken := (Scan.ofText "print );").tokens.toList
    let after := (Scan.ofText "print b;").tokens.toList
    BrokenStatement 20 broken (.ending 1) ∧
      (ofTokens (20 + 1) before (.ending 1)).reports = #[] ∧
      ofTokens (20 + 1) (before ++ broken ++ after) (.ending 1) =
        ⟨⟨(ofTokens (20 + 1) before (.ending 1)).program.body ++
            (ofTokens (20 + 1) after (.ending 1)).program.body⟩,
          (ofTokens (20 + 1) broken (.ending 1)).reports ++
            (ofTokens (20 + 1) after (.ending 1)).reports⟩ ∧
      (ofTokens (20 + 1) (before ++ broken ++ after) (.ending 1)).reports.map Diagnostic.text =
        #["[line 1] Error at ')': Expect expression."] ∧
      (match (ofTokens (20 + 1) (before ++ broken ++ after) (.ending 1)).program.body with
        | [.print (.var a none), .print (.var b none)] =>
          decide (a.lexeme = "a" ∧ b.lexeme = "b")
        | _ => false) = true := by
  have none : (ofTokens (20 + 1) (Scan.ofText "print a;").tokens.toList
      (.ending 1)).reports.isEmpty = true := by
    decide +kernel
  have silent := Array.isEmpty_iff.mp none
  have ends : (Token.ending 1).kind = .endOfText := rfl
  have costs : ofTokens (20 + 1) ((Scan.ofText "print a;").tokens.toList ++
      (Scan.ofText "print );").tokens.toList ++ (Scan.ofText "print b;").tokens.toList)
        (.ending 1) = _ :=
    broken_statement_costs_itself ends ends ends silent brokenStatement_print
  refine ⟨brokenStatement_print, silent, costs, ?_, ?_⟩
  all_goals
    rw [costs]
    decide +kernel

end Program
end Arbor
