import Arbor.Proofs.Execution.Names
import Arbor.Proofs.Scope.Orderly

/-!
# Frames that stand for scopes

A run follows the resolution of the program in lockstep: the frames outward from where a node is
evaluated stand, one for one, for the scopes the resolver had in hand when it came to that node.
This module says what that means for a frame, and that it lasts whatever a run does.

It is said against a *history*: the visits of all resolutions so far, and the frames made so far
together with the scopes they were made for.

## Main definitions

* `History`: which visits there were, and which frames were made for which site.
* `Stands`: a frame stands for a stack of scopes.
* `Exact`: a frame holds no more than what is ready in the innermost scope.

## Main statements

* `Stands.ancestor?_length`, `Stands.found`: how far the globals are, and what is held on the way.
* `Stands.mono`: frames go on standing for their scopes.
-/

namespace Arbor
namespace Execution

open Eval Stateful Scope

/-- What has happened: the visits of resolutions, all of them regular, and the frames that were
made, with the sites they were made for. -/
structure History where
  seen : Visit → Prop
  made : Site → FrameId → Prop
  leads : ∀ {v v' : Visit}, seen v → Leads v v' → seen v'
  regular : ∀ {v : Visit}, seen v → v.Regular

/-! ### Frames -/

/-- The frame `f` and those around it, up to the globals, stand for scopes: each was made for the
site of its scope and holds the names that are ready in it. -/
inductive Stands (made : Site → FrameId → Prop) (frames : Frames Value) :
    FrameId → List Site → List (Bindings Bool) → Prop
  | globals : Stands made frames Machine.globals [] []
  | inner {f outer : FrameId} {site : Site} {sites : List Site} {scope : Bindings Bool}
      {scopes : List (Bindings Bool)} (link : frames.enclosing? f = some outer)
      (origin : made site f)
      (holds : ∀ name, scope.get? name = some true → (frames.local? f name).isSome = true)
      (rest : Stands made frames outer sites scopes) :
      Stands made frames f (site :: sites) (scope :: scopes)

/-- The frame `f` holds no name but those that are ready in the innermost scope. -/
def Exact (frames : Frames Value) (f : FrameId) : List (Bindings Bool) → Prop
  | [] => True
  | scope :: _ => ∀ name, (frames.local? f name).isSome = true → scope.get? name = some true

namespace Stands

variable {made : Site → FrameId → Prop} {frames new : Frames Value} {f g frame : FrameId}
variable {site : Site} {sites : List Site} {scope : Bindings Bool} {scopes : List (Bindings Bool)}
variable {names : List String}

theorem lt_size (stands : Stands made frames f sites scopes) (there : 0 < frames.size) :
    f < frames.size := by
  cases stands with
  | globals => exact there
  | inner link _ _ _ => exact Frames.lt_size_of_link link

/-- What frames stand for survives every change a run can make. -/
theorem mono (stands : Stands made frames f sites scopes)
    (changes : frames.Changes frame names new) : Stands made new f sites scopes := by
  induction stands with
  | globals => exact .globals
  | inner link origin holds rest ih =>
    refine .inner ?_ origin (fun name ready => changes.keeps _ _ (holds name ready)) ih
    rw [changes.links _ (Frames.lt_size_of_link link), link]

/-- The globals are as many links away as there are scopes. -/
theorem ancestor?_length (stands : Stands made frames f sites scopes) :
    frames.ancestor? scopes.length f = some Machine.globals := by
  induction stands with
  | globals => rfl
  | inner link _ _ _ ih =>
    rw [List.length_cons, Frames.ancestor?, link]
    exact ih

/-- The frame at the distance of a scope was made for its site and holds its ready names.  The
induction is along the frames and the scopes, which go outward together. -/
theorem found (stands : Stands made frames f sites scopes) {d : Nat}
    (at_d : scopes[d]? = some scope) :
    ∃ g site, frames.ancestor? d f = some g ∧ sites[d]? = some site ∧ made site g ∧
      ∀ name, scope.get? name = some true → (frames.local? g name).isSome = true := by
  induction stands generalizing d with
  | globals => simp at at_d
  | @inner f outer site sites first rest link origin holds _ ih =>
    cases d with
    | zero =>
      rw [List.getElem?_cons_zero, Option.some.injEq] at at_d
      subst at_d
      exact ⟨f, site, rfl, rfl, origin, holds⟩
    | succ d =>
      -- one link further out there is one scope less
      obtain ⟨g, site, reached, there, origin, holds⟩ := ih (by simpa using at_d)
      refine ⟨g, site, ?_, by simpa using there, origin, holds⟩
      rw [Frames.ancestor?, link]
      exact reached

/-- Fewer ready names are held as well. -/
theorem weaken {less : Bindings Bool} (stands : Stands made frames f sites (scope :: scopes))
    (sub : ∀ name, less.get? name = some true → scope.get? name = some true) :
    Stands made frames f sites (less :: scopes) := by
  cases stands with
  | inner link origin holds rest =>
    exact .inner link origin (fun name ready => holds name (sub name ready)) rest

/-- A name that is just being declared is not ready.  So nothing has to be held for it yet, and all
other names of the scope are held as before. -/
theorem mark (stands : Stands made frames f sites scopes) (name : String) :
    Stands made frames f sites (marked false name scopes) := by
  cases scopes with
  | nil => exact stands
  | cons scope outer =>
    refine stands.weaken fun other ready => ?_
    rw [Bindings.get?_put] at ready
    split at ready
    · cases ready
    · exact ready

/-- Names that are held may be introduced, and are ready from then on.  Among the globals nothing is
claimed of a name. -/
theorem introduce (stands : Stands made frames f sites scopes)
    (held : ∀ name ∈ names, (frames.local? f name).isSome = true) :
    Stands made frames f sites (introduce names scopes) := by
  cases stands with
  | globals => exact .globals
  | inner link origin holds rest =>
    refine .inner link origin (fun name ready => ?_) rest
    rw [get?_foldl_introduced] at ready
    split at ready
    · next mem => exact held name mem
    · exact holds name ready

theorem introduce_one {name : String} (stands : Stands made frames f sites scopes)
    (held : (frames.local? f name).isSome = true) :
    Stands made frames f sites (Scope.introduce [name] scopes) := by
  refine stands.introduce fun other mem => ?_
  rw [List.mem_singleton.mp mem]
  exact held

end Stands

namespace Exact

variable {frames new : Frames Value} {f frame : FrameId} {scopes : List (Bindings Bool)}
variable {names : List String}

/-- The names a run adds to the frame are those that are introduced into the scope.  All of them are
ready, so that a name which is held is ready in the scope. -/
theorem introduce (tight : Exact frames f scopes) (there : f < frames.size)
    (changes : frames.Changes f names new) : Exact new f (introduce names scopes) := by
  cases scopes with
  | nil => trivial
  | cons scope outer =>
    intro name holds
    rw [get?_foldl_introduced]
    rcases changes.adds f there name holds with held | ⟨-, mem⟩
    · split
      · rfl
      · exact tight name held
    · rw [if_pos mem]

theorem calm (tight : Exact frames f scopes) (there : f < frames.size)
    (changes : frames.Changes f [] new) : Exact new f scopes := by
  have same := tight.introduce there changes
  rwa [introduce_nil] at same

/-- A name that was not there before it was declared is not held.  So it may be unready in the
scope, while all names that are held are ready. -/
theorem mark {name : String} (tight : Exact frames f scopes)
    (absent : ∀ scope outer, scopes = scope :: outer → scope.contains name = false) :
    Exact frames f (marked false name scopes) := by
  cases scopes with
  | nil => trivial
  | cons scope outer =>
    intro other holds
    have ready := tight other holds
    have apart : other ≠ name := by
      rintro rfl
      have missing := absent scope outer rfl
      rw [Bindings.contains, ready] at missing
      cases missing
    rw [Bindings.get?_put_of_ne _ apart]
    exact ready

end Exact

end Execution
end Arbor
