import Arbor.Proofs.Scope.Closed
import Arbor.Proofs.Stateful

/-!
# What resolution reports

Everything that resolution reports is on the text of the program, never on a run, whatever tree it
walks over and whether or not it meets a misfit.  So a report of the resolver counts as an error of
the program and keeps it from running.

## Main statements

* `Program.onText_resolve`: no report on a program that is resolved is that of a run.
-/

namespace Arbor
namespace Scope

open Stateful

variable {α β : Type}

/-- All reports so far are on the text. -/
def State.OnText (s : State) : Prop :=
  ∀ report ∈ s.reports, report.isRuntime = false

/-- A walk that adds reports on the text only, however it ends. -/
def ReportsOnText (x : Resolve α) : Prop :=
  ∀ s, s.OnText → Ensures x s (fun _ s' => s'.OnText) fun _ s' => s'.OnText

namespace ReportsOnText

theorem pure (a : α) : ReportsOnText (Pure.pure a) :=
  fun _ onText => onText

theorem bind {x : Resolve α} {k : α → Resolve β} (first : ReportsOnText x)
    (second : ∀ a, ReportsOnText (k a)) : ReportsOnText (x >>= k) :=
  fun s onText => (first s onText).bind fun a s' _ onText' => second a s' onText'

/-- Changes of the scopes and of the names are no reports. -/
theorem modify {f : State → State} (same : ∀ s, (f s).reports = s.reports) :
    ReportsOnText (modifyThe State f : Resolve PUnit) := by
  intro s onText report mem
  rw [same] at mem
  exact onText report mem

theorem report (token : Token) (error : ScopeError) : ReportsOnText (report token error) := by
  intro s onText added mem
  rcases Array.mem_push.mp mem with old | rfl
  · exact onText added old
  · rfl

theorem reportIf (condition : Bool) (token : Token) (error : ScopeError) :
    ReportsOnText (reportIf condition token error) := by
  cases condition with
  | false => exact .pure _
  | true => exact .report token error

theorem declare (name : Token) : ReportsOnText (declare name) := by
  refine bind (x := get) (fun _ onText => onText) fun s => ?_
  split
  · split
    · exact .pure _
    · exact .modify fun _ => rfl
  · exact .bind (.reportIf _ _ _) fun _ => .modify fun _ => rfl

end ReportsOnText

/-- Whatever the resolver reports is on the text. -/
theorem closed_reportsOnText : Closed fun _ x => ReportsOnText x where
  pure := .pure
  throw _ := fun _ onText => onText
  bind := .bind
  report := .report
  link kind name := by
    intro s onText
    refine Ensures.modifyGet ?_
    split <;> exact onText
  ready name _ _ rest := .bind (x := get) (fun _ onText => onText) fun _ =>
    .bind (.reportIf _ _ _) fun _ => rest
  declare := .declare
  define name := .modify fun s => by split <;> rfl
  within _ _ inner := .bind (.modify fun _ => rfl) fun _ => .bind inner fun _ =>
    .bind (.modify fun _ => rfl) fun _ => .pure _

end Scope

/-- What is reported on a program that is resolved is on its text. -/
theorem Program.onText_resolve (globals : List String) (p : Program) :
    ∀ report ∈ (p.resolve globals).reports, report.isRuntime = false := by
  have walked := Scope.closed_reportsOnText.stmts {} p.body
    { globals := globals.foldl (fun known name => known.put name true) Bindings.empty }
    fun _ mem => absurd mem (Array.not_mem_empty _)
  unfold Program.resolve
  dsimp only
  split
  · next ran => exact walked.of_ok ran
  · next ran => exact walked.of_error ran

end Arbor
