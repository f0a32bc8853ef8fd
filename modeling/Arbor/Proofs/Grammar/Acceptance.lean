import Arbor.Proofs.Grammar.Completeness
import Arbor.Proofs.Grammar.Soundness

/-!
# The programs that are read without a report

As far as the nesting of rules allows for, programs are read without a report exactly if they are
derived from their tokens, and they are read as what is derived.  In particular no tokens derive two
programs.  Whatever is derived is read by a parser that has enough room, and a parser that has not
says so.

## Main statements

* `Program.exists_ofTokens_eq`: what is derived is read, or it is reported that it nests too deep.
* `Program.silent_iff_derives`: programs without reports are those that are derived.
-/

namespace Arbor
namespace Grammar

/-- It was reported that rules nest too deep. -/
def ReportsTooDeep (reports : Array Diagnostic) : Prop :=
  ∃ t, .grammar t .tooDeep ∈ reports

/-- A declaration is read, or the lack of room is caught.  Nothing else stops the rule here, so what
the caller catches is always the lack of room. -/
theorem Leads.caught {little : Prop} {x : Parser (Option Stmt)} {s s' : State} {st : Stmt}
    (leads : Leads little x s (pure (some st)) s') :
    (tryCatch (some <$> x) fun _ => pure none : Parser (Option (Option Stmt))).run s =
        .ok (some (some st)) s' ∨
      little ∧ ∃ stopped, (tryCatch (some <$> x) fun _ => pure none :
        Parser (Option (Option Stmt))).run s = .ok none stopped := by
  rcases leads.map (g := some) with same | ⟨short, stopped, stops⟩
  · refine .inl ?_
    change (some <$> x) s = .ok (some (some st)) s' at same
    change EStateM.tryCatch (some <$> x) _ s = .ok (some (some st)) s'
    unfold EStateM.tryCatch
    rw [same]
  · refine .inr ⟨short, stopped, ?_⟩
    change (some <$> x) s = .error .tooDeep stopped at stops
    change EStateM.tryCatch (some <$> x) _ s = .ok none stopped
    unfold EStateM.tryCatch
    rw [stops]
    rfl

/-- The declarations of a program are read one after the other up to the end of the text.  The room
that is needed is the sum of what each of them needs, and there is fuel for as many as there are,
since every declaration has at least one token. -/
theorem exists_topLevel_returns : ∀ {items : List (List Token × Stmt)},
    (∀ item ∈ items, Clause.declaration.Derives item.1 item.2) →
    ∃ need, ∀ (room fuel : Nat) (before : List Stmt) (s : State),
      (items.flatMap Prod.fst).length ≤ s.bound → items.length ≤ fuel →
      (topLevel room fuel before).run (s.facing (items.flatMap Prod.fst)) =
          .ok (before.reverse ++ items.map Prod.snd) (s.facing []) ∨
        room < need ∧ ∃ body final,
          (topLevel room fuel before).run (s.facing (items.flatMap Prod.fst)) = .ok body final ∧
          ReportsTooDeep final.reports
  | [], _ => by
    refine ⟨0, fun room fuel before s _ _ => .inl ?_⟩
    rw [List.flatMap_nil, List.map_nil, List.append_nil]
    cases fuel with
    | zero => rfl
    | succ fuel => rfl
  | (tokens, st) :: items, each => by
    have here := each _ List.mem_cons_self
    obtain ⟨need₁, read⟩ := here.reads
    obtain ⟨first, others, same, -⟩ := here.begins
    have each' : ∀ item ∈ items, Clause.declaration.Derives item.1 item.2 :=
      fun item mem => each item (List.mem_cons_of_mem _ mem)
    obtain ⟨need₂, later⟩ := exists_topLevel_returns each'
    refine ⟨need₁ + need₂, fun room fuel before s fits enough => ?_⟩
    obtain ⟨fuel, rfl⟩ := Nat.exists_eq_succ_of_ne_zero (Nat.ne_of_gt (Nat.lt_of_lt_of_le
      (Nat.succ_pos _) enough))
    -- what follows is the end or another declaration, so no `else` is left over
    have noElse : NoElse (items.flatMap Prod.fst) := by
      cases items with
      | nil => nofun
      | cons next items =>
        obtain ⟨t, more, same, starts⟩ := (each' next List.mem_cons_self).begins
        rw [List.flatMap_cons, same]
        exact .cons (startsDeclaration_ne_else starts) _
    rw [List.flatMap_cons] at fits ⊢
    have some : (s.facing (tokens ++ items.flatMap Prod.fst)).rest.isEmpty = false := by
      change tokens = first :: others at same
      rw [same]
      rfl
    rw [run_topLevel, some, if_neg Bool.false_ne_true, EStateM.run_bind]
    rcases (read room s _ fits noElse).caught with ran | ⟨short, stopped, ran⟩
    · rw [ran]
      have rest := later room fuel (st :: before) s
        (by rw [List.length_append] at fits; omega) (Nat.le_of_succ_le_succ enough)
      rw [List.reverse_cons, List.append_assoc] at rest
      exact rest.imp_right fun tooDeep => ⟨by omega, tooDeep.2⟩
    · rw [ran]
      -- the report is the last thing that is done, so it stays
      refine .inr ⟨by omega, _, _, rfl, stopped.current, ?_⟩
      exact Array.mem_push_self

end Grammar

namespace Program

open Grammar

theorem ofTokens_of_ok {room : Nat} {tokens : List Token} {ending : Token} {body : List Stmt}
    {final : State} (ran : (topLevel room tokens.length []).run
      { rest := tokens, ending := ending, bound := tokens.length } = .ok body final) :
    ofTokens room tokens ending = ⟨⟨body⟩, final.reports⟩ := by
  unfold ofTokens
  dsimp only
  rw [ran]

/-- What is derived is read, unless its rules nest too deep for the room there is.  How deep they
nest depends on the derivation alone, so with enough room the text is read. -/
theorem exists_ofTokens_eq {tokens : List Token} {p : Program} (ending : Token)
    (derives : DerivesProgram tokens p) : ∃ need, ∀ room,
      ofTokens room tokens ending = ⟨p, #[]⟩ ∨
        room < need ∧ ReportsTooDeep (ofTokens room tokens ending).reports := by
  obtain ⟨items, each, rfl, body⟩ := derives
  obtain ⟨need, reads⟩ := exists_topLevel_returns each
  refine ⟨need, fun room => ?_⟩
  let s : State := { rest := [], ending, bound := (items.flatMap Prod.fst).length }
  have few := length_le_flatMap fun item mem => (each item mem).begins
  rcases reads room s.bound [] s (Nat.le_refl _) few with ran | ⟨short, _, final, ran, tooDeep⟩
  · rw [ofTokens_of_ok ran]
    left
    cases p
    cases body
    rfl
  · rw [ofTokens_of_ok ran]
    exact .inr ⟨short, tooDeep⟩

/-- The parser accepts exactly what is derived.  If it is not reported that the rules nest too deep,
there is no report at all exactly if some program is derived from the tokens, and that program is the
one that is read.  Enough room is there for every program. -/
theorem silent_iff_derives {ending : Token} (ends : ending.kind = .endOfText)
    (tokens : List Token) :
    (∀ room, ¬ ReportsTooDeep (ofTokens room tokens ending).reports →
      ((ofTokens room tokens ending).reports = #[] ↔ ∃ p, DerivesProgram tokens p) ∧
      ∀ p, DerivesProgram tokens p → (ofTokens room tokens ending).program = p) ∧
    ∀ p, DerivesProgram tokens p →
      ∃ enough, ∀ room ≥ enough, ofTokens room tokens ending = ⟨p, #[]⟩ := by
  have reads : ∀ room p, ¬ ReportsTooDeep (ofTokens room tokens ending).reports →
      DerivesProgram tokens p → ofTokens room tokens ending = ⟨p, #[]⟩ := by
    intro room p shallow derives
    obtain ⟨need, reads⟩ := exists_ofTokens_eq ending derives
    exact (reads room).resolve_right fun tooDeep => shallow tooDeep.2
  refine ⟨fun room shallow => ⟨⟨fun silent => ?_, ?_⟩, fun p derives => ?_⟩, fun p derives => ?_⟩
  · exact ⟨_, derives_of_silent ends silent⟩
  · rintro ⟨p, derives⟩
    rw [reads room p shallow derives]
  · rw [reads room p shallow derives]
  · obtain ⟨enough, reads⟩ := exists_ofTokens_eq ending derives
    exact ⟨enough, fun room large => (reads room).resolve_right fun tooDeep => by omega⟩

theorem ofTokens_nested_if :
    (match ofTokens depthLimit
        (Scan.ofText "if (a) if (b) print a; else print b;").tokens.toList (.ending 1) with
      | ⟨⟨[.ifElse _ (.ifElse _ _ (some _)) none]⟩, ⟨[]⟩⟩ => true
      | _ => false) = true := by
  decide +kernel

/-- The tokens of two nested `if` statements and one `else` derive a single program, in which the
inner `if` has the `else`. -/
theorem nearest_if_takes_else :
    (∃ p, DerivesProgram (Scan.ofText "if (a) if (b) print a; else print b;").tokens.toList p) ∧
      ∀ p, DerivesProgram (Scan.ofText "if (a) if (b) print a; else print b;").tokens.toList p →
        ∃ a b yes no, p.body = [.ifElse a (.ifElse b yes (some no)) none] := by
  have shape := ofTokens_nested_if
  split at shape
  · next reading =>
    have shallow : ¬ ReportsTooDeep (ofTokens depthLimit
        (Scan.ofText "if (a) if (b) print a; else print b;").tokens.toList (.ending 1)).reports := by
      rw [reading]
      rintro ⟨t, mem⟩
      exact Array.not_mem_empty _ mem
    obtain ⟨accepts, same⟩ := (silent_iff_derives rfl _).1 depthLimit shallow
    refine ⟨accepts.mp (by rw [reading]), fun p derives => ?_⟩
    rw [← same p derives, reading]
    exact ⟨_, _, _, _, rfl⟩
  · cases shape

end Program
end Arbor
