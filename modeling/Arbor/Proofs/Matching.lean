import Arbor.Bindings
import Mathlib.Logic.Equiv.Basic
import Mathlib.Data.List.Forall2
import Mathlib.Data.Option.Basic

/-!
# Bindings under other names

Two sets of bindings match if one binding after the other goes by a permuted name and has a value that
goes with the value there.  Lookups and new bindings keep to this as long as the names that are used
are permuted in the same way.

## Main statements

* `Bindings.Matches.get?`: what lookups find.
* `Bindings.Matches.put`: new bindings.
-/

namespace Arbor
namespace Bindings

variable {α : Type} {perm : Equiv.Perm String} {goes more : α → α → Prop} {b b' : Bindings α}

/-- One by one, the names are permuted and the values go with each other. -/
def Matches (perm : Equiv.Perm String) (goes : α → α → Prop) (b b' : Bindings α) : Prop :=
  List.Forall₂ (fun entry entry' => entry'.1 = perm entry.1 ∧ goes entry.2 entry'.2)
    b.entries b'.entries

theorem rel_mono {a b : Option α} (related : Option.Rel goes a b)
    (weaker : ∀ v v', goes v v' → more v v') : Option.Rel more a b := by
  cases related with
  | some same => exact .some (weaker _ _ same)
  | none => exact .none

namespace Matches

theorem empty : Matches perm goes (Bindings.empty : Bindings α) Bindings.empty :=
  .nil

theorem mono (matched : Matches perm goes b b') (weaker : ∀ v v', goes v v' → more v v') :
    Matches perm more b b' :=
  List.Forall₂.imp (fun _ _ both => ⟨both.1, weaker _ _ both.2⟩) matched

/-- A lookup finds values that go with each other, or none in both.  The names are exchanged one to
one, so no other entry can be taken for the one that is sought. -/
theorem get? (matched : Matches perm goes b b') (name : String) :
    Option.Rel goes (b.get? name) (b'.get? (perm name)) := by
  obtain ⟨entries⟩ := b
  obtain ⟨entries'⟩ := b'
  unfold Matches at matched
  unfold Bindings.get?
  dsimp only at matched ⊢
  induction matched with
  | nil => exact .none
  | @cons entry entry' rest rest' both _ ih =>
    obtain ⟨key, value⟩ := entry
    obtain ⟨key', value'⟩ := entry'
    obtain ⟨rfl, values⟩ := both
    by_cases same : key = name
    · rw [find?, if_pos same, find?, if_pos (congrArg perm same)]
      exact .some values
    · rw [find?, if_neg same, find?, if_neg fun equal => same (perm.injective equal)]
      exact ih

/-- Values that go with each other may be put under a name on one side and its counterpart on the
other.  An entry is replaced on both sides or on neither. -/
theorem put (matched : Matches perm goes b b') (name : String) {value value' : α}
    (values : goes value value') :
    Matches perm goes (b.put name value) (b'.put (perm name) value') := by
  obtain ⟨entries⟩ := b
  obtain ⟨entries'⟩ := b'
  unfold Matches at matched ⊢
  unfold Bindings.put
  dsimp only at matched ⊢
  induction matched with
  | nil => exact .cons ⟨rfl, values⟩ .nil
  | @cons entry entry' rest rest' both others ih =>
    obtain ⟨key, old⟩ := entry
    obtain ⟨key', old'⟩ := entry'
    obtain ⟨rfl, olds⟩ := both
    by_cases same : key = name
    · rw [replace, if_pos same, replace, if_pos (congrArg perm same)]
      exact .cons ⟨rfl, values⟩ others
    · rw [replace, if_neg same, replace, if_neg fun equal => same (perm.injective equal)]
      exact .cons ⟨rfl, olds⟩ ih

/-- Bindings under the same names look the same if their values do. -/
theorem map_entries {β : Type} (matched : Matches perm goes b b') (fixed : ∀ name, perm name = name)
    {view : α → β} (alike : ∀ v v', goes v v' → view v' = view v) :
    b'.entries.map (fun entry => (entry.1, view entry.2))
      = b.entries.map fun entry => (entry.1, view entry.2) := by
  obtain ⟨entries⟩ := b
  obtain ⟨entries'⟩ := b'
  unfold Matches at matched
  dsimp only at matched ⊢
  induction matched with
  | nil => rfl
  | cons both _ ih => rw [List.map_cons, List.map_cons, ih, both.1, alike _ _ both.2, fixed]

end Matches
end Bindings
end Arbor
