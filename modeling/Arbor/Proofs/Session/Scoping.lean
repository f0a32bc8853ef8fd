import Arbor.Proofs.Program.Unresolved
import Arbor.Proofs.Scope.Placed
import Arbor.Proofs.Scope.Registers
import Arbor.Proofs.Session.Split

/-!
# The scoping of a text

What resolution makes of the program a text reads as, said by the places of its nodes alone: which
reports it gives, and which distances the references get.

## Main statements

* `Program.reports_violations`: the reports on a program are its violations of the rules of scoping.
* `Program.links_lexical`: the distances of references are lexical.
-/

namespace Arbor
namespace Scope

/-- In the beginning the state is that of the first statement. -/
theorem stands_initial (globals : List String) :
    Stands globals [.item .program [] []] (.initial globals) := by
  refine ⟨.nil, fun _ name => ?_, fun _ => rfl⟩
  rw [get?_initial]
  simp [Place.topNames]

end Scope

namespace Program

open Scope

/-- The resolution of a well-formed program, as a walk over its spots.  It always comes to an end,
so there is such a walk for every program that was read from a text. -/
theorem exists_walked {p : Program} (formed : Stmt.AllFormed Token.Spelled p.body)
    (globals : List String) :
    ∃ (q : Program) (s : State), (stmts {} p.body).run (.initial globals) = .ok q.body s ∧
      p.resolve globals = ⟨.ok q, s.reports, s.resolutions⟩ ∧
      Walked globals p.spots q.spots (.initial globals) s := by
  obtain ⟨q, outcome⟩ := exists_resolve formed globals
  obtain ⟨s, ran, -, -⟩ := run_of_resolve outcome
  exact ⟨q, s, ran, resolve_of_run ran, stmts_walked p.body formed (fun _ => rfl)
    (stands_initial globals) ran⟩

theorem reports_of_formed {p : Program} (formed : Stmt.AllFormed Token.Spelled p.body)
    (globals : List String) :
    (p.resolve globals).reports.toList = p.spots.flatMap (Spot.violations globals) := by
  obtain ⟨q, s, -, resolved, walked⟩ := exists_walked formed globals
  rw [resolved]
  exact walked.noted.reports

/-- Resolution reports exactly what violates the rules of scoping: for each spot of the program a
text reads as, in order, the reports that the rules ask for at its place, and nothing else. -/
theorem reports_violations (globals : List String) (text : String) :
    ((ofText text).program.resolve globals).reports.toList
      = (ofText text).program.spots.flatMap (Spot.violations globals) :=
  reports_of_formed (Session.formed_ofText text) globals

/-- Distances are lexical.  The program a text reads as is resolved to the end, whatever is reported
on it, and nothing but the distances of its references changes.  They are those that the places of
the references give them; the ones found are recorded, each reference at most once and in order.  In
the end no scope is open.  What is around a place is handed down to it; a walk that keeps it in
registers does the same, and the registers are in the end what they were in the beginning. -/
theorem links_lexical (globals : List String) (text : String) :
    ∃ (q : Program) (s : State),
      (stmts {} (ofText text).program.body).run (.initial globals) = .ok q.body s ∧
      (ofText text).program.resolve globals = ⟨.ok q, s.reports, s.resolutions⟩ ∧
      q.unresolved = (ofText text).program.unresolved ∧
      (∀ spot ∈ q.spots, spot.Linked globals) ∧
      s.reports.toList = q.spots.flatMap (Spot.violations globals) ∧
      s.resolutions.toList = q.spots.filterMap Spot.resolution? ∧
      s.scopes = [] ∧
      ((Keeping.stmts (ofText text).program.body).run {}).run (.initial globals)
        = .ok (q.body, {}) s := by
  have formed := Session.formed_ofText text
  obtain ⟨q, s, ran, resolved, walked⟩ := exists_walked formed globals
  have outcome : ((ofText text).program.resolve globals).outcome = .ok q := by rw [resolved]
  have same := unresolved_of_resolve outcome
  -- distances do not matter to resolution, so the same is reported on the resolved program
  have again : (q.resolve globals).reports = s.reports := by
    rw [← resolve_unresolved, same, resolve_unresolved, resolved]
  have reports := reports_of_formed (formed_of_resolve outcome formed) globals
  rw [again] at reports
  refine ⟨q, s, ran, resolved, same, walked.linked, reports, walked.noted.resolutions, ?_, ?_⟩
  · rw [(stmts_effect _ _ ran).2.scopes]
    rfl
  · rw [Keeping.run_stmts]
    exact Stateful.run_map_ok.mpr ⟨q.body, ran, rfl⟩

end Program
end Arbor
