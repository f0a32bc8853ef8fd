import Arbor.Bindings
import Arbor.Diagnostic
import Arbor.Fault

/-!
# Frames

The variables of a running program live in frames.  A frame holds bindings and, unless it is
outermost, has an enclosing frame that was made before it.  Frames are numbered in the order in
which they are made and are never removed, so a function can keep the number of the frame it
was made in.

A variable is reached in two ways: by name, in the nearest frame outward that holds it, or at a
known distance, in the frame that many links outward.  A failed access changes nothing.

## Main definitions

* `Frames.make`, `Frames.define`: a new frame, a new or changed binding.
* `Frames.outward`: the frames from a given one to the outermost.
* `Frames.get`, `Frames.assign`: access by name.
* `Frames.getAt`, `Frames.assignAt`: access at a distance.
-/

namespace Arbor

/-- The number of a frame. -/
abbrev FrameId := Nat

/-- A frame: the frame around it, and its bindings. -/
structure Frame (α : Type) where
  enclosing : Option FrameId
  bindings : Bindings α := {}
deriving Inhabited

/-- All frames made so far. -/
structure Frames (α : Type) where
  cells : Array (Frame α) := #[]

namespace Frames

variable {α : Type}

/-- No frames. -/
def empty : Frames α := ⟨#[]⟩

instance : Inhabited (Frames α) := ⟨empty⟩

/-- How many frames there are, which is also the number of the next one. -/
def size (s : Frames α) : Nat :=
  s.cells.size

/-- Makes an empty frame inside another, or an outermost one. -/
def make (s : Frames α) (enclosing : Option FrameId) : Frames α :=
  ⟨s.cells.push { enclosing := enclosing }⟩

/-- The frame around a frame. -/
def enclosing? (s : Frames α) (f : FrameId) : Option FrameId :=
  s.cells[f]?.bind Frame.enclosing

/-- The value a frame itself holds for a name. -/
def local? (s : Frames α) (f : FrameId) (name : String) : Option α :=
  s.cells[f]?.bind fun frame => frame.bindings.get? name

/-- Binds a name in a frame. -/
def define (s : Frames α) (f : FrameId) (name : String) (value : α) : Frames α :=
  ⟨s.cells.modify f fun frame => { frame with bindings := frame.bindings.put name value }⟩

/-- The bindings of a frame. -/
def bindings (s : Frames α) (f : FrameId) : Bindings α :=
  match s.cells[f]? with
  | some frame => frame.bindings
  | none => {}

/-- The names a frame holds. -/
def names (s : Frames α) (f : FrameId) : List String :=
  (s.bindings f).names

theorem mem_names {s : Frames α} {f : FrameId} {name : String} :
    name ∈ s.names f ↔ (s.local? f name).isSome = true := by
  unfold names bindings local?
  rw [← Bindings.contains_iff]
  cases s.cells[f]? <;> rfl

/-! ### What `make` and `define` change -/

@[simp] theorem size_make (s : Frames α) (enclosing : Option FrameId) :
    (s.make enclosing).size = s.size + 1 := by
  simp [make, size]

@[simp] theorem size_define (s : Frames α) (f : FrameId) (name : String) (value : α) :
    (s.define f name value).size = s.size := by
  simp [define, size]

@[simp] theorem enclosing?_make_self (s : Frames α) (enclosing : Option FrameId) :
    (s.make enclosing).enclosing? s.size = enclosing := by
  simp [make, enclosing?, size]

/-- Only a frame that is there has a link. -/
theorem lt_size_of_link {s : Frames α} {f g : FrameId} (link : s.enclosing? f = some g) :
    f < s.size := by
  rcases Nat.lt_or_ge f s.size with there | beyond
  · exact there
  · have absent : s.cells[f]? = none := Array.getElem?_eq_none beyond
    simp [enclosing?, absent] at link

/-- Making a frame leaves the links of all others. -/
theorem enclosing?_make_of_ne (s : Frames α) (enclosing : Option FrameId) {f : FrameId}
    (ne : f ≠ s.size) : (s.make enclosing).enclosing? f = s.enclosing? f := by
  have other : ¬ f = s.cells.size := ne
  simp [make, enclosing?, Array.getElem?_push, other]

/-- A new frame holds nothing, and the others hold what they held. -/
@[simp] theorem local?_make (s : Frames α) (enclosing : Option FrameId) (f : FrameId)
    (name : String) : (s.make enclosing).local? f name = s.local? f name := by
  by_cases new : f = s.cells.size
  · simp [make, local?, new]
  · simp [make, local?, Array.getElem?_push, new]

/-- Binding a name changes no link. -/
@[simp] theorem enclosing?_define (s : Frames α) (f g : FrameId) (name : String) (value : α) :
    (s.define f name value).enclosing? g = s.enclosing? g := by
  by_cases same : f = g
  · cases cell : s.cells[g]? <;> simp [define, enclosing?, Array.getElem?_modify, same, cell]
  · simp [define, enclosing?, Array.getElem?_modify, same]

theorem local?_define_self (s : Frames α) {f : FrameId} (there : f < s.size) (name : String)
    (value : α) : (s.define f name value).local? f name = some value := by
  have bound : f < s.cells.size := there
  have cell : s.cells[f]? = some s.cells[f] := Array.getElem?_eq_getElem bound
  simp [define, local?, Array.getElem?_modify, cell]

/-- Binding a name in a frame changes no other name and no other frame. -/
theorem local?_define_of_ne (s : Frames α) {f g : FrameId} {name other : String}
    (ne : g ≠ f ∨ other ≠ name) (value : α) :
    (s.define f name value).local? g other = s.local? g other := by
  by_cases same : f = g
  · have differ : other ≠ name := ne.resolve_left fun h => h same.symm
    cases cell : s.cells[g]? <;>
      simp [define, local?, Array.getElem?_modify, same, cell, Bindings.get?_put_of_ne _ differ]
  · simp [define, local?, Array.getElem?_modify, same]

/-! ### Access by name -/

/-- The frames from `f` outward, at most `fuel` of them; each was made before the last. -/
def walk (s : Frames α) : Nat → FrameId → List FrameId
  | 0, _ => []
  | fuel + 1, f =>
    match s.enclosing? f with
    | some outer => if outer < f then f :: walk s fuel outer else [f]
    | none => [f]

/-- The frames from `f` to the outermost. -/
def outward (s : Frames α) (f : FrameId) : List FrameId :=
  s.walk (f + 1) f

/-- The nearest frame outward that holds a name. -/
def holder? (s : Frames α) (f : FrameId) (name : String) : Option FrameId :=
  (s.outward f).find? fun g => (s.local? g name).isSome

/-- A frame that holds a name is the nearest one that does.  The walk outward begins with the frame
itself, wherever it leads to from there. -/
theorem holder?_of_held {s : Frames α} {f : FrameId} {name : String}
    (holds : (s.local? f name).isSome = true) : s.holder? f name = some f := by
  have first : ∃ rest, s.outward f = f :: rest := by
    unfold outward walk
    cases s.enclosing? f with
    | none => exact ⟨[], rfl⟩
    | some outer =>
      dsimp only
      split <;> exact ⟨_, rfl⟩
  obtain ⟨rest, walked⟩ := first
  unfold holder?
  rw [walked]
  exact List.find?_cons_of_pos holds

/-- The value of a name in the nearest frame that holds it. -/
def get (s : Frames α) (f : FrameId) (name : String) : Except RuntimeCause α :=
  match (s.outward f).findSome? fun g => s.local? g name with
  | some value => .ok value
  | none => .error (.undefinedVariable name)

/-- Changes the value of a name in the nearest frame that holds it. -/
def assign (s : Frames α) (f : FrameId) (name : String) (value : α) :
    Except RuntimeCause (Frames α) :=
  match s.holder? f name with
  | some g => .ok (s.define g name value)
  | none => .error (.undefinedVariable name)

/-! ### Access at a distance -/

/-- The frame a number of links outward. -/
def ancestor? (s : Frames α) : Nat → FrameId → Option FrameId
  | 0, f => some f
  | links + 1, f =>
    match s.enclosing? f with
    | some outer => ancestor? s links outer
    | none => none

/-- The frame at a distance; a negative distance follows no link. -/
def ancestor (s : Frames α) (f : FrameId) (distance : Int) : Except Fault FrameId :=
  match s.ancestor? distance.toNat f with
  | some g => .ok g
  | none => .error (.noFrame distance)

/-- The frame at a distance, which has to hold a name, and the value it holds. -/
def holderAt (s : Frames α) (f : FrameId) (distance : Int) (name : String) :
    Except Fault (FrameId × α) := do
  let g ← s.ancestor f distance
  match s.local? g name with
  | some value => pure (g, value)
  | none => throw (.nameMissing name distance)

/-- The value of a name in the frame at a distance. -/
def getAt (s : Frames α) (f : FrameId) (distance : Int) (name : String) : Except Fault α :=
  return (← s.holderAt f distance name).2

/-- Changes the value of a name in the frame at a distance. -/
def assignAt (s : Frames α) (f : FrameId) (distance : Int) (name : String) (value : α) :
    Except Fault (Frames α) := do
  let (g, _) ← s.holderAt f distance name
  pure (s.define g name value)

end Frames
end Arbor
