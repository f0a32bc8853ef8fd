import Arbor.Frames

/-!
# Chains of frames

A frame is made inside one that is already there, so every link leads to a frame with a smaller
number.  Such frames are called *ordered*.  Going outward from one of them comes to an end, and the
bounds that `Frames.walk` has for the sake of termination cut nothing off: the frames outward are
those at distance zero, one, two and so on, up to an outermost one, and access by name goes from a
frame that does not hold the name to the frame around it, whatever that is.

The nearest holder of a name is the frame that holds it at the least distance.

## Main definitions

* `Frames.Ordered`: every link leads to a frame that was made earlier.
* `Frames.Nearest`: the least distance at which a name is held.

## Main statements

* `Frames.Ordered.wellFounded`: links lead outward only so often.
* `Frames.Ordered.getElem?_outward`: the frames outward are those at each distance.
* `Frames.Ordered.get_eq`, `Frames.Ordered.assign_eq`: access by name goes from frame to frame.
* `Frames.Ordered.holder?_eq_some_iff`: the nearest frame is the one at the least distance.
-/

namespace Arbor
namespace Frames

variable {α : Type} {s : Frames α} {f g : FrameId} {name : String}

/-- Every link leads to a frame that was made earlier. -/
def Ordered (s : Frames α) : Prop :=
  ∀ f g, s.enclosing? f = some g → g < f

namespace Ordered

theorem empty : (Frames.empty : Frames α).Ordered := by
  intro f g link
  simp [Frames.empty, enclosing?] at link

/-- A frame is made inside one that is there. -/
theorem make (ordered : s.Ordered) {enclosing : Option FrameId}
    (there : ∀ g, enclosing = some g → g < s.size) : (s.make enclosing).Ordered := by
  intro f g link
  by_cases new : f = s.size
  · subst new
    rw [enclosing?_make_self] at link
    exact there g link
  · rw [enclosing?_make_of_ne s enclosing new] at link
    exact ordered f g link

theorem define (ordered : s.Ordered) (f : FrameId) (name : String) (value : α) :
    (s.define f name value).Ordered := by
  intro h g link
  rw [enclosing?_define] at link
  exact ordered h g link

/-- No frame is around itself, however far out. -/
theorem wellFounded (ordered : s.Ordered) :
    WellFounded fun g f => s.enclosing? f = some g :=
  Subrelation.wf (fun {g f} link => ordered f g link) Nat.lt_wfRel.wf

/-! ### Walking outward -/

/-- A walk with more turns than there are frames to visit is the whole way outward.  Links go to
frames with smaller numbers, so the number of a frame bounds the turns that are needed. -/
theorem walk_eq_outward (ordered : s.Ordered) {turns : Nat} (enough : f < turns) :
    s.walk turns f = s.outward f := by
  induction f using Nat.strongRecOn generalizing turns with
  | ind f ih =>
    obtain ⟨turns, rfl⟩ := Nat.exists_eq_succ_of_ne_zero (Nat.ne_of_gt (Nat.zero_lt_of_lt enough))
    simp only [outward, walk]
    cases link : s.enclosing? f with
    | none => rfl
    | some outer =>
      have earlier := ordered f outer link
      simp only [if_pos earlier, List.cons.injEq, true_and]
      have fewer : outer < turns := Nat.lt_of_lt_of_le earlier (Nat.le_of_lt_succ enough)
      rw [ih outer earlier fewer, ih outer earlier earlier]

/-- The frames outward are the frame itself and those outward from the frame around it. -/
theorem outward_eq (ordered : s.Ordered) (f : FrameId) :
    s.outward f = f :: (s.enclosing? f).elim [] s.outward := by
  rw [outward, walk]
  cases link : s.enclosing? f with
  | none => rfl
  | some outer =>
    have earlier := ordered f outer link
    simp only [if_pos earlier, Option.elim_some]
    rw [ordered.walk_eq_outward earlier]

/-- The frames outward are those at each distance. -/
theorem getElem?_outward (ordered : s.Ordered) (f : FrameId) (d : Nat) :
    (s.outward f)[d]? = s.ancestor? d f := by
  induction d generalizing f with
  | zero =>
    rw [ordered.outward_eq]
    rfl
  | succ d ih =>
    rw [ordered.outward_eq, List.getElem?_cons_succ, ancestor?]
    cases s.enclosing? f with
    | none => rfl
    | some outer => exact ih outer

/-- From a frame outward there are frames up to some distance, and none beyond.  What surrounds a
frame was made before it, so the number of the frame bounds the distance; the induction is on that
number. -/
theorem exists_depth (ordered : s.Ordered) (f : FrameId) :
    ∃ depth, depth ≤ f ∧ ∀ d, (s.ancestor? d f).isSome = true ↔ d ≤ depth := by
  induction f using Nat.strongRecOn with
  | ind f ih =>
    cases link : s.enclosing? f with
    | none =>
      refine ⟨0, Nat.zero_le f, ?_⟩
      intro d
      cases d <;> simp [ancestor?, link]
    | some outer =>
      have earlier := ordered f outer link
      obtain ⟨depth, bound, reach⟩ := ih outer earlier
      refine ⟨depth + 1, Nat.succ_le_of_lt (Nat.lt_of_le_of_lt bound earlier), ?_⟩
      intro d
      cases d with
      | zero => simp [ancestor?]
      | succ d => simp [ancestor?, link, reach d]

/-! ### Access by name, frame by frame -/

theorem get_eq (ordered : s.Ordered) (f : FrameId) (name : String) :
    s.get f name =
      match s.local? f name with
      | some value => .ok value
      | none => (s.enclosing? f).elim (.error (.undefinedVariable name)) fun g => s.get g name := by
  simp only [get]
  rw [ordered.outward_eq, List.findSome?_cons]
  cases s.local? f name with
  | some value => rfl
  | none => cases s.enclosing? f <;> simp

theorem holder?_eq (ordered : s.Ordered) (f : FrameId) (name : String) :
    s.holder? f name =
      if (s.local? f name).isSome then some f
      else (s.enclosing? f).elim none fun g => s.holder? g name := by
  simp only [holder?]
  rw [ordered.outward_eq, List.find?_cons]
  cases s.local? f name with
  | some value => simp
  | none => cases s.enclosing? f <;> simp

theorem assign_eq (ordered : s.Ordered) (f : FrameId) (name : String) (value : α) :
    s.assign f name value =
      if (s.local? f name).isSome then .ok (s.define f name value)
      else (s.enclosing? f).elim (.error (.undefinedVariable name)) fun g =>
        s.assign g name value := by
  simp only [assign]
  rw [ordered.holder?_eq]
  by_cases held : (s.local? f name).isSome = true
  · simp only [if_pos held]
  · simp only [if_neg held]
    cases s.enclosing? f <;> rfl

end Ordered

/-! ### The nearest holder -/

/-- The frame `g` holds a name, `d` links outward from `f`, and no nearer frame does. -/
structure Nearest (s : Frames α) (f : FrameId) (name : String) (d : Nat) (g : FrameId) : Prop where
  reached : s.ancestor? d f = some g
  held : (s.local? g name).isSome = true
  nearer : ∀ e < d, ∀ h, s.ancestor? e f = some h → s.local? h name = none

namespace Nearest

variable {d : Nat} {outer : FrameId}

/-- A frame that holds a name is its own nearest holder. -/
theorem here (held : (s.local? f name).isSome = true) : s.Nearest f name 0 f :=
  ⟨rfl, held, fun _ less => absurd less (Nat.not_lt_zero _)⟩

/-- From a frame that does not hold a name the nearest holder is one link further, if there is one
behind that link. -/
theorem further (missing : s.local? f name = none) (link : s.enclosing? f = some outer)
    (nearest : s.Nearest outer name d g) : s.Nearest f name (d + 1) g := by
  refine ⟨?_, nearest.held, ?_⟩
  · rw [ancestor?, link]
    exact nearest.reached
  · intro e less h reached
    cases e with
    | zero =>
      cases reached
      exact missing
    | succ e =>
      rw [ancestor?, link] at reached
      exact nearest.nearer e (Nat.lt_of_succ_lt_succ less) h reached

end Nearest

namespace Ordered

/-- The nearest frame that holds a name is the one at the least distance: the frames outward are
those at each distance, and the first of them that holds the name is taken. -/
theorem holder?_eq_some_iff (ordered : s.Ordered) :
    s.holder? f name = some g ↔ ∃ d, s.Nearest f name d g := by
  unfold holder?
  rw [List.find?_eq_some_iff_getElem]
  constructor
  · rintro ⟨held, d, inside, at_d, before⟩
    refine ⟨d, ?_, held, fun e less h reached => ?_⟩
    · rw [← ordered.getElem?_outward, List.getElem?_eq_getElem inside, at_d]
    · rw [← ordered.getElem?_outward, List.getElem?_eq_getElem (Nat.lt_trans less inside)] at reached
      cases reached
      simpa using before e less
  · rintro ⟨d, reached, held, nearer⟩
    rw [← ordered.getElem?_outward] at reached
    obtain ⟨inside, at_d⟩ := List.getElem?_eq_some_iff.mp reached
    refine ⟨held, d, inside, at_d, fun e less => ?_⟩
    have there : s.ancestor? e f = some (s.outward f)[e] := by
      rw [← ordered.getElem?_outward, List.getElem?_eq_getElem]
    simp [nearer e less _ there]

theorem holder?_of_nearest (ordered : s.Ordered) {d : Nat} (nearest : s.Nearest f name d g) :
    s.holder? f name = some g :=
  ordered.holder?_eq_some_iff.mpr ⟨d, nearest⟩

/-- What is nearest is at some distance. -/
theorem exists_nearest (ordered : s.Ordered) (found : s.holder? f name = some g) :
    ∃ d, s.Nearest f name d g :=
  ordered.holder?_eq_some_iff.mp found

/-- Nothing is found outward exactly if no frame on the way holds the name. -/
theorem holder?_eq_none_iff (ordered : s.Ordered) :
    s.holder? f name = none ↔ ∀ d g, ¬ s.Nearest f name d g := by
  constructor
  · intro none d g nearest
    rw [ordered.holder?_of_nearest nearest] at none
    cases none
  · intro missing
    cases found : s.holder? f name with
    | none => rfl
    | some g =>
      obtain ⟨d, nearest⟩ := ordered.exists_nearest found
      exact absurd nearest (missing d g)

end Ordered

/-- Access by name is access to the nearest holder.  One walk looks for the value and the other one
for the frame, and both stop at the first frame with the name. -/
theorem get_eq_of_holder? (s : Frames α) (f : FrameId) (name : String) :
    s.get f name =
      match s.holder? f name with
      | some g => (s.local? g name).elim (.error (.undefinedVariable name)) .ok
      | none => .error (.undefinedVariable name) := by
  simp only [get, holder?]
  induction s.outward f with
  | nil => rfl
  | cons g rest ih =>
    rw [List.findSome?_cons, List.find?_cons]
    cases held : s.local? g name with
    | none => exact ih
    | some value => simp [held]

end Frames
end Arbor
