import Arbor.Value

/-!
# Chains of classes

A class leads to the class it inherits from, that one to the next, up to a class that inherits from
none.  A method is looked up along this chain, and what is found is what the nearest class declares
that declares the name at all.

If a class has a greater identity than the one it inherits from, its identity bounds the length of
its chain.

## Main definitions

* `Class.ancestor?`: the class a number of links up the chain.
* `Class.Nearest`: the method that the nearest class of the chain declares.
* `Class.Ordered`: all links of the chain lead to classes with smaller identities.

## Main statements

* `Class.findMethod?_eq_some_iff`, `Class.findMethod?_eq_none_iff`: what a lookup finds.
* `Class.Ordered.exists_depth`: the chain ends.
-/

namespace Arbor
namespace Class

variable {c parent : Class} {name : String} {method : Closure}

/-- The class a number of links up the chain. -/
def ancestor? : Nat → Class → Option Class
  | 0, c => some c
  | links + 1, c =>
    match c.superclass with
    | some parent => ancestor? links parent
    | none => none

theorem ancestor?_succ (link : c.superclass = some parent) (links : Nat) :
    c.ancestor? (links + 1) = parent.ancestor? links := by
  rw [ancestor?, link]

theorem ancestor?_succ_of_none (outermost : c.superclass = none) (links : Nat) :
    c.ancestor? (links + 1) = none := by
  rw [ancestor?, outermost]

/-! ### The nearest declaration -/

/-- The class `d` links up the chain declares the method, and no nearer class declares one of that
name. -/
structure Nearest (c : Class) (name : String) (d : Nat) (method : Closure) : Prop where
  declared : ∃ k, c.ancestor? d = some k ∧ k.methods.get? name = some method
  nearer : ∀ e < d, ∀ k, c.ancestor? e = some k → k.methods.get? name = none

namespace Nearest

/-- What a class declares itself is nearest. -/
theorem own (declared : c.methods.get? name = some method) : c.Nearest name 0 method :=
  ⟨⟨c, rfl, declared⟩, fun _ less => absurd less (Nat.not_lt_zero _)⟩

/-- What a class does not declare is one link further than from the class it inherits from.  The
classes at the nearer distances are the class itself, which does not have it, and those nearer to
the other one. -/
theorem inherited (missing : c.methods.get? name = none) (link : c.superclass = some parent)
    {d : Nat} (nearest : parent.Nearest name d method) : c.Nearest name (d + 1) method := by
  refine ⟨?_, ?_⟩
  · rw [ancestor?_succ link]
    exact nearest.declared
  · intro e less k reached
    cases e with
    | zero =>
      cases reached
      exact missing
    | succ e =>
      rw [ancestor?_succ link] at reached
      exact nearest.nearer e (Nat.lt_of_succ_lt_succ less) k reached

end Nearest

/-- A lookup goes on to the class above if the class does not declare the name. -/
theorem findMethod?_eq (c : Class) (name : String) :
    c.findMethod? name =
      match c.methods.get? name with
      | some method => some method
      | none => c.superclass.bind fun parent => parent.findMethod? name := by
  obtain ⟨id, own, superclass, methods⟩ := c
  cases superclass with
  | none =>
    simp only [findMethod?]
    cases methods.get? name <;> rfl
  | some parent => rw [findMethod?]; rfl

/-- A lookup finds what is declared nearest.  The induction is on the distance: where it is zero the
class itself declares the method, and otherwise the class does not have the name and the lookup goes
on in the one above. -/
theorem findMethod?_of_nearest {d : Nat} (nearest : c.Nearest name d method) :
    c.findMethod? name = some method := by
  induction d generalizing c with
  | zero =>
    obtain ⟨⟨k, reached, declared⟩, -⟩ := nearest
    cases reached
    rw [findMethod?_eq, declared]
  | succ d ih =>
    obtain ⟨⟨k, reached, declared⟩, nearer⟩ := nearest
    have missing : c.methods.get? name = none := nearer 0 (Nat.succ_pos d) c rfl
    cases link : c.superclass with
    | none =>
      rw [ancestor?_succ_of_none link] at reached
      cases reached
    | some parent =>
      rw [findMethod?_eq, missing, link]
      rw [ancestor?_succ link] at reached
      refine ih ⟨⟨k, reached, declared⟩, ?_⟩
      intro e less k' reached'
      refine nearer (e + 1) (Nat.succ_lt_succ less) k' ?_
      rw [ancestor?_succ link]
      exact reached'

/-- What a lookup finds is declared nearest by some class of the chain.  The induction follows the
lookup, and the distance grows by one with each class that does not have the name. -/
theorem exists_nearest : ∀ {c : Class}, c.findMethod? name = some method →
    ∃ d, c.Nearest name d method
  | ⟨_, _, none, _⟩, found => ⟨0, .own found⟩
  | ⟨id, own, some parent, methods⟩, found => by
    rw [findMethod?_eq] at found
    cases declared : methods.get? name with
    | some here =>
      rw [declared] at found
      cases found
      exact ⟨0, .own declared⟩
    | none =>
      rw [declared] at found
      obtain ⟨d, nearest⟩ := exists_nearest (c := parent) found
      exact ⟨d + 1, .inherited declared rfl nearest⟩

theorem findMethod?_eq_some_iff :
    c.findMethod? name = some method ↔ ∃ d, c.Nearest name d method :=
  ⟨exists_nearest, fun ⟨_, nearest⟩ => findMethod?_of_nearest nearest⟩

/-- Nothing is found exactly if no class of the chain declares the name.  One direction is an
induction along the chain, the other one the nearest declaration that a successful lookup has. -/
theorem findMethod?_eq_none_iff :
    c.findMethod? name = none ↔ ∀ d k, c.ancestor? d = some k → k.methods.get? name = none := by
  constructor
  · intro none d
    -- what a class above declares would have been found by the lookup from there
    induction d generalizing c with
    | zero =>
      intro k reached
      cases reached
      rw [findMethod?_eq] at none
      split at none
      · cases none
      · assumption
    | succ d ih =>
      intro k reached
      cases link : c.superclass with
      | none =>
        rw [ancestor?_succ_of_none link] at reached
        cases reached
      | some parent =>
        rw [ancestor?_succ link] at reached
        refine ih ?_ k reached
        rw [findMethod?_eq, link] at none
        split at none
        · cases none
        · exact none
  · intro missing
    cases found : c.findMethod? name with
    | none => rfl
    | some method =>
      obtain ⟨d, ⟨k, reached, declared⟩, -⟩ := exists_nearest found
      rw [missing d k reached] at declared
      cases declared

/-! ### The end of a chain -/

/-- All links of the chain lead to classes with smaller identities. -/
def Ordered (c : Class) : Prop :=
  ∀ d k parent, c.ancestor? d = some k → k.superclass = some parent → parent.id < k.id

theorem Ordered.up (ordered : c.Ordered) (link : c.superclass = some parent) : parent.Ordered := by
  intro d k above reached
  refine ordered (d + 1) k above ?_
  rw [ancestor?_succ link]
  exact reached

/-- A chain has classes up to some distance, and none beyond.  Each step goes to a class of a
smaller identity, so the identity of the class bounds the distance. -/
theorem Ordered.exists_depth (ordered : c.Ordered) :
    ∃ depth, depth ≤ c.id ∧ ∀ d, (c.ancestor? d).isSome = true ↔ d ≤ depth := by
  induction bound : c.id using Nat.strongRecOn generalizing c with
  | ind n ih =>
    subst bound
    cases link : c.superclass with
    | none =>
      refine ⟨0, Nat.zero_le _, ?_⟩
      intro d
      cases d <;> simp [ancestor?, link]
    | some parent =>
      have less := ordered 0 c parent rfl link
      obtain ⟨depth, within, reach⟩ := ih parent.id less (ordered.up link) rfl
      refine ⟨depth + 1, Nat.succ_le_of_lt (Nat.lt_of_le_of_lt within less), ?_⟩
      intro d
      cases d with
      | zero => simp [ancestor?]
      | succ d => simp [ancestor?_succ link, reach d]

end Class
end Arbor
