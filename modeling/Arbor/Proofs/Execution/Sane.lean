import Arbor.Proofs.Execution.Standing
import Arbor.Proofs.Operator

/-!
# Sane machines

Functions run long after their scope was resolved, so the machine has to remember it for them.
A machine is sane with respect to a history if everything it holds fits it: each function, also as
a method of a class or of the class of an instance, was resolved at some visit and made in a frame
that stands for the scopes of that visit.  The operations of the machine keep it sane, and none of
them ends in a fault when it is used on a frame that stands for the scopes it was resolved with.

A method waits in its class for the instance it will be bound to; the frame that will hold `this`
does not exist yet, so it fits one scope further out than a function does.

## Main definitions

* `ClosureFits`, `MethodFits`, `ClassFits`, `Fits`: values that go with a history.
* `Sane`: machines that hold only such values.
* `Upholds`: computations that keep a machine sane and raise at most one kind of fault.
-/

namespace Arbor

/-! ### Fields of instances -/

namespace Machine

variable {P : Value → Prop} {all : Array (Bindings Value)}

/-- A new instance has no fields.  So what is true of all that fields hold stays true when one is
made. -/
theorem forall_fields_push (held : ∀ (i : Nat) (fields : Bindings Value) (name : String) (v : Value),
      all[i]? = some fields → fields.get? name = some v → P v) :
    ∀ (i : Nat) (fields : Bindings Value) (name : String) (v : Value),
      (all.push {})[i]? = some fields → fields.get? name = some v → P v := by
  intro i fields name v at_i holds
  rw [Array.getElem?_push] at at_i
  split at at_i
  · cases at_i
    simp at holds
  · exact held i fields name v at_i holds

/-- After a field was set the fields hold the new value and what they held before.  It is stated for
any property of values that all fields have. -/
theorem forall_fields_put (held : ∀ (i : Nat) (fields : Bindings Value) (name : String) (v : Value),
      all[i]? = some fields → fields.get? name = some v → P v) {new : Value} (holds : P new)
    (i : Nat) (name : String) :
    ∀ (j : Nat) (fields : Bindings Value) (other : String) (v : Value),
      (all.modify i fun fields => fields.put name new)[j]? = some fields →
        fields.get? other = some v → P v := by
  intro j fields other v at_j found
  rw [Array.getElem?_modify] at at_j
  split at at_j
  · obtain ⟨old, at_old, rfl⟩ := Option.map_eq_some_iff.mp at_j
    rw [Bindings.get?_put] at found
    split at found
    · cases found
      exact holds
    · exact held j old other v at_old found
  · exact held j fields other v at_j found

/-- The fields of an instance hold what fields hold. -/
theorem forall_fieldsOf {m : Machine} (held : ∀ (i : Nat) (fields : Bindings Value) (name : String)
      (v : Value), m.fields[i]? = some fields → fields.get? name = some v → P v)
    {i : Instance} {name : String} {v : Value} (found : (m.fieldsOf i).get? name = some v) : P v := by
  unfold fieldsOf at found
  split at found
  · next fields at_i => exact held _ fields name v at_i found
  · simp at found

end Machine

namespace Execution

open Eval Stateful Scope

/-- The scope that holds `this`. -/
def thisScope : Bindings Bool :=
  Bindings.empty.put "this" true

section Definitions

variable (h : History) (frames : Frames Value)

/-- A function that was resolved at some visit and made in a frame that stands for its scopes. -/
def ClosureFits (c : Closure) : Prop :=
  (∃ sites s context kind decl s', h.seen ⟨sites, s, .function context kind decl⟩ ∧
    Yields (function context kind decl) s c.decl s' ∧
    Stands h.made frames c.frame sites s.scopes) ∧
  (c.isInitializer = true → (frames.local? c.frame "this").isSome = true)

/-- A method that was resolved at some visit and made in a frame that stands for its scopes, apart
from the one that holds `this`. -/
def MethodFits (c : Closure) : Prop :=
  ∃ sites s context kind decl s' scopes,
    h.seen ⟨.receiver c.decl :: sites, s, .function context kind decl⟩ ∧
    Yields (function context kind decl) s c.decl s' ∧
    s.scopes = thisScope :: scopes ∧ Stands h.made frames c.frame sites scopes

/-- A class all of whose methods fit, inherited ones included. -/
def ClassFits (c : Class) : Prop :=
  ∀ name method, c.findMethod? name = some method → MethodFits h frames method

/-- A value that goes with a history. -/
def Fits : Value → Prop
  | .closure c => ClosureFits h frames c
  | .cls c => ClassFits h frames c
  | .object i => ClassFits h frames i.ofClass
  | _ => True

end Definitions

/-- A machine that goes with a history. -/
structure Sane (h : History) (m : Machine) : Prop where
  there : 0 < m.frames.size
  held : ∀ f name v, m.frames.local? f name = some v → Fits h m.frames v
  super : ∀ f v, m.frames.local? f "super" = some v → ∃ c, v = .cls c
  fields : ∀ (i : Nat) fields name v, m.fields[i]? = some fields → fields.get? name = some v →
    Fits h m.frames v

variable {h : History} {frames new : Frames Value} {frame : FrameId} {names : List String}

/-- A function that goes with a history still does when frames have been added to. -/
theorem ClosureFits.mono {c : Closure} (fits : ClosureFits h frames c)
    (changes : frames.Changes frame names new) : ClosureFits h new c := by
  obtain ⟨⟨sites, s, context, kind, decl, s', seen, yields, stands⟩, bound⟩ := fits
  refine ⟨⟨sites, s, context, kind, decl, s', seen, yields, stands.mono changes⟩, fun init => ?_⟩
  exact changes.keeps _ _ (bound init)

/-- So does a method, whose frame for the receiver is yet to be made. -/
theorem MethodFits.mono {c : Closure} (fits : MethodFits h frames c)
    (changes : frames.Changes frame names new) : MethodFits h new c := by
  obtain ⟨sites, s, context, kind, decl, s', scopes, seen, yields, same, stands⟩ := fits
  exact ⟨sites, s, context, kind, decl, s', scopes, seen, yields, same, stands.mono changes⟩

/-- So does a class, by its methods. -/
theorem ClassFits.mono {c : Class} (fits : ClassFits h frames c)
    (changes : frames.Changes frame names new) : ClassFits h new c :=
  fun name method found => (fits name method found).mono changes

/-- What fits goes on fitting while a program runs. -/
theorem Fits.mono {v : Value} (fits : Fits h frames v)
    (changes : frames.Changes frame names new) : Fits h new v := by
  cases v with
  | closure c => exact ClosureFits.mono fits changes
  | cls c => exact ClassFits.mono fits changes
  | object i => exact ClassFits.mono fits changes
  | _ => trivial

/-- Constants of the program go with every history. -/
theorem Fits.ofConstant (value : Constant) : Fits h frames (.ofConstant value) := by
  cases value <;> trivial

/-- So do all values without functions or classes in them. -/
theorem Fits.of_plain {v : Value} (plain : v.isPlain = true) : Fits h frames v := by
  cases v with
  | closure | cls | object => cases plain
  | _ => trivial

/-! ### Changes of a sane machine -/

namespace Sane

variable {m m' : Machine}

/-- Only frames and fields matter. -/
theorem congr (sane : Sane h m) (sameFrames : m'.frames = m.frames)
    (sameFields : m'.fields = m.fields) : Sane h m' := by
  obtain ⟨there, held, super, fields⟩ := sane
  exact ⟨by rwa [sameFrames], by rwa [sameFrames], by rwa [sameFrames],
    by rwa [sameFrames, sameFields]⟩

/-- The trace holds no functions. -/
theorem note (sane : Sane h m) (event : Event) : Sane h (m.note event) :=
  sane.congr rfl rfl

/-- Binding a value that fits keeps a machine sane, if what is bound to `super` is a class.  The
value may fit only once it is bound, as an initializer does. -/
theorem define (sane : Sane h m) {f : FrameId} {name : String} {value : Value}
    (fits : Fits h (m.frames.define f name value) value)
    (super : name = "super" → ∃ c, value = .cls c) :
    Sane h { m with frames := m.frames.define f name value } := by
  have changes : m.frames.Changes f [name] (m.frames.define f name value) :=
    .define (List.mem_singleton_self name) value
  refine ⟨by simpa using sane.there, fun g other v holds => ?_, fun g v holds => ?_,
    fun i fields other v at_i holds => (sane.fields i fields other v at_i holds).mono changes⟩
  · rcases Frames.local?_of_define holds with ⟨rfl, rfl⟩ | before
    · exact fits
    · exact (sane.held g other v before).mono changes
  · rcases Frames.local?_of_define holds with ⟨rfl, rfl⟩ | before
    · exact super rfl
    · exact sane.super g v before

/-- A new frame holds nothing, and all that fitted before fits with it. -/
theorem make (sane : Sane h m) (enclosing : Option FrameId) :
    Sane h { m with frames := m.frames.make enclosing } := by
  have changes : m.frames.Changes 0 [] (m.frames.make enclosing) := .make enclosing
  refine ⟨by simp, fun g name v holds => ?_, fun g v holds => ?_,
    fun i fields name v at_i holds => (sane.fields i fields name v at_i holds).mono changes⟩
  · rw [Frames.local?_make] at holds
    exact (sane.held g name v holds).mono changes
  · rw [Frames.local?_make] at holds
    exact sane.super g v holds

/-- A new instance has no fields. -/
theorem pushFields (sane : Sane h m) : Sane h { m with fields := m.fields.push {} } :=
  ⟨sane.there, sane.held, sane.super, Machine.forall_fields_push sane.fields⟩

/-- A field may be set to any value that fits. -/
theorem putField (sane : Sane h m) {i : Nat} {name : String} {value : Value}
    (fits : Fits h m.frames value) :
    Sane h { m with fields := m.fields.modify i fun fields => fields.put name value } :=
  ⟨sane.there, sane.held, sane.super, Machine.forall_fields_put sane.fields fits i name⟩

end Sane

/-! ### Computations that keep a machine sane -/

/-- An end that is no fault, or the fault of a name that is missing right here. -/
def Benign (abort : Abort) : Prop :=
  ∀ fault, abort = .fault fault → ∃ name, fault = .nameMissing name 0

/-- However `x` ends, the machine is sane then; if it returns, `returns` holds; if it stops, the
reason is benign. -/
def Upholds {α : Type} (h : History) (x : Eval α) (m : Machine) (returns : α → Machine → Prop) :
    Prop :=
  Ensures x m (fun a m' => Sane h m' ∧ returns a m') fun abort m' => Sane h m' ∧ Benign abort

namespace Upholds

variable {α β : Type} {m : Machine} {returns : α → Machine → Prop} {x : Eval α}

/-- In sequence the second computation starts on a sane machine, knowing what the first one
returned. -/
theorem bind {k : α → Eval β} {after : β → Machine → Prop} (first : Upholds h x m returns)
    (second : ∀ a m', x.run m = .ok a m' → Sane h m' → returns a m' → Upholds h (k a) m' after) :
    Upholds h (x >>= k) m after :=
  Ensures.bind first fun a m' ran both => second a m' ran both.1 both.2

/-- Less may be claimed of what is returned. -/
theorem mono {returns' : α → Machine → Prop} (upholds : Upholds h x m returns)
    (weaker : ∀ a m', returns a m' → returns' a m') : Upholds h x m returns' :=
  Ensures.mono upholds (fun a m' both => ⟨both.1, weaker a m' both.2⟩) fun _ _ both => both

/-- A result that fits may be given at once. -/
theorem pure {a : α} (sane : Sane h m) (holds : returns a m) :
    Upholds h (Pure.pure a) m returns :=
  ⟨sane, holds⟩

/-- Looking at the machine leaves it, so what is seen is what there is. -/
theorem get (sane : Sane h m) :
    Upholds h MonadState.get m fun found m' => m = found ∧ m = m' :=
  ⟨sane, rfl, rfl⟩

/-- An error of the program is no fault. -/
theorem fail (sane : Sane h m) (line : Int) (cause : RuntimeCause) :
    Upholds h (Eval.fail line cause) m returns :=
  ⟨sane, fun _ same => by cases same⟩

/-- The judgement read off a run that returned. -/
theorem of_ok {a : α} {m' : Machine} (upholds : Upholds h x m returns)
    (ran : x.run m = .ok a m') : Sane h m' ∧ returns a m' :=
  Ensures.of_ok upholds ran

/-- What is noted on the way does not matter to what follows. -/
theorem note {k : Unit → Eval β} {after : β → Machine → Prop} {event : Event}
    (rest : Upholds h (k ()) (m.note event) after) :
    Upholds h (Eval.note event >>= k) m after :=
  rest

end Upholds

/-! ### References -/

section References

variable {m : Machine} {f g : FrameId} {name : String} {d : Nat}

/-- A frame that is reached along its links is found at that distance. -/
theorem ancestor_of_reached (reached : frames.ancestor? d f = some g) :
    frames.ancestor f (d : Int) = .ok g := by
  unfold Frames.ancestor
  rw [Int.toNat_natCast, reached]

/-- A name that the frame at a distance holds is found there. -/
theorem holderAt_of_held {v : Value} (reached : frames.ancestor? d f = some g)
    (held : frames.local? g name = some v) : frames.holderAt f (d : Int) name = .ok (g, v) := by
  unfold Frames.holderAt
  rw [ancestor_of_reached reached]
  simp only [Bind.bind, Except.bind, held]
  rfl

/-- A name that the frame at a distance does not hold is missing there. -/
theorem holderAt_of_missing (reached : frames.ancestor? d f = some g)
    (missing : frames.local? g name = none) :
    frames.holderAt f (d : Int) name = .error (.nameMissing name d) := by
  unfold Frames.holderAt
  rw [ancestor_of_reached reached]
  simp only [Bind.bind, Except.bind, missing]
  rfl

/-- A name that is held where its distance leads is read there. -/
theorem getAt_of_held {v : Value} (reached : frames.ancestor? d f = some g)
    (held : frames.local? g name = some v) : frames.getAt f (d : Int) name = .ok v := by
  unfold Frames.getAt
  rw [holderAt_of_held reached held]
  rfl

/-- Reading it changes nothing. -/
theorem run_getAt_of_held {v : Value} (reached : m.frames.ancestor? d f = some g)
    (held : m.frames.local? g name = some v) : (getAt f (d : Int) name).run m = .ok v m := by
  have found := getAt_of_held reached held
  change (orFault (m.frames.getAt f (d : Int) name)).run m = _
  rw [found]
  rfl

/-- A reference whose name is held where its distance leads does not end in a fault. -/
theorem upholds_getAt (sane : Sane h m) (reached : m.frames.ancestor? d f = some g)
    (held : (m.frames.local? g name).isSome = true) :
    Upholds h (getAt f (d : Int) name) m fun v m' => m' = m ∧ m.frames.local? g name = some v := by
  obtain ⟨v, held⟩ := Option.isSome_iff_exists.mp held
  unfold Upholds Ensures
  rw [run_getAt_of_held reached held]
  exact ⟨sane, rfl, held⟩

/-- A global is read or is an error of the program; that is never a fault.  What is read was held by
a frame, and so it fits. -/
theorem upholds_getGlobal (sane : Sane h m) (name : Token) :
    Upholds h (getGlobal name) m fun v m' => Fits h m'.frames v := by
  unfold getGlobal
  change Upholds h (orFail name.line (m.frames.get Machine.globals name.lexeme)) m _
  unfold Frames.get
  split
  · next v found =>
    obtain ⟨g, -, held⟩ := List.exists_of_findSome?_eq_some found
    exact .pure sane (sane.held g _ v held)
  · exact .fail sane _ _

/-- Names other than `super` are bound to values that fit. -/
theorem upholds_define (sane : Sane h m) {v : Value} (fits : Fits h m.frames v)
    (plain : name ≠ "super") (f : FrameId) :
    Upholds h (Eval.define f name v) m fun _ m' =>
      m'.frames = m.frames.define f name v := by
  have changes : m.frames.Changes f [name] (m.frames.define f name v) :=
    .define (List.mem_singleton_self name) v
  exact ⟨sane.define (fits.mono changes) fun same => absurd same plain, rfl⟩

/-- An assignment at a distance changes a name that is held there; it can only miss one that is
not held right here. -/
theorem upholds_assignAt (sane : Sane h m) {value : Value} (fits : Fits h m.frames value)
    (plain : name ≠ "super") (reached : m.frames.ancestor? d f = some g)
    (here : (m.frames.local? g name).isSome = true ∨ d = 0) :
    Upholds h (assignAt f (d : Int) name value) m fun _ _ => True := by
  cases held : m.frames.local? g name with
  | some v =>
    have found := holderAt_of_held reached held
    change Upholds h (orFault (m.frames.holderAt f (d : Int) name) >>= fun holder =>
      Eval.define holder.1 name value) m _
    rw [found]
    exact (upholds_define sane fits plain g).mono fun _ _ _ => trivial
  | none =>
    -- the one fault that is benign
    have missing := holderAt_of_missing reached held
    have zero : d = 0 := here.resolve_left (by simp [held])
    change Upholds h (orFault (m.frames.holderAt f (d : Int) name) >>= fun holder =>
      Eval.define holder.1 name value) m _
    rw [missing]
    refine ⟨sane, fun fault same => ⟨name, ?_⟩⟩
    cases same
    rw [zero]
    rfl

/-- An assignment by name finds a frame that holds the name, or is an error of the program. -/
theorem upholds_assign (sane : Sane h m) {value : Value} (fits : Fits h m.frames value)
    {name : Token} (plain : name.lexeme ≠ "super") (f : FrameId) :
    Upholds h (assign f name value) m fun _ _ => True := by
  unfold assign
  refine (Upholds.get sane).bind ?_
  rintro _ _ - - ⟨rfl, rfl⟩
  split
  · exact (upholds_define sane fits plain _).mono fun _ _ _ => trivial
  · exact .fail sane _ _

end References

/-! ### Methods and their receivers -/

section Methods

variable {m : Machine}

/-- The scope of a receiver has one name in it. -/
theorem get?_thisScope {name : String} (ready : thisScope.get? name = some true) :
    name = "this" := by
  unfold thisScope at ready
  rw [Bindings.get?_put] at ready
  split at ready
  · next same => exact same
  · simp at ready

/-- A method that is bound to a value becomes a function that fits.  The frame that is made for
`this` goes with the scope that the resolver opened around the methods of the class. -/
theorem upholds_bindThis (sane : Sane h m) {c : Closure} {receiver : Value}
    (fits : MethodFits h m.frames c) (fitsReceiver : Fits h m.frames receiver)
    (made : h.made (.receiver c.decl) m.frames.size) :
    Upholds h (bindThis c receiver) m fun bound m' =>
      ClosureFits h m'.frames bound ∧ bound.arity = c.arity := by
  have new : m.frames.Changes m.frames.size [] (m.frames.make (some c.frame)) := .make _
  let widened : Machine := { m with frames := m.frames.make (some c.frame) }
  have sane' : Sane h widened := sane.make _
  have changes : (m.frames.make (some c.frame)).Changes m.frames.size ["this"]
      ((m.frames.make (some c.frame)).define m.frames.size "this" receiver) :=
    .define (List.mem_singleton_self "this") receiver
  have sane'' := sane'.define (f := m.frames.size) ((fitsReceiver.mono new).mono changes)
    (fun same => absurd same (by decide))
  have holds : (((m.frames.make (some c.frame)).define m.frames.size "this" receiver).local?
      m.frames.size "this").isSome = true := by
    rw [Frames.local?_define_self _ (by simp)]
    rfl
  refine ⟨sane''.congr rfl rfl, ⟨?_, fun _ => holds⟩, rfl⟩
  obtain ⟨sites, s, context, kind, decl, s', scopes, seen, yields, same, stands⟩ := fits
  refine ⟨_, s, context, kind, decl, s', seen, yields, ?_⟩
  rw [same]
  have link : ((m.frames.make (some c.frame)).define m.frames.size "this" receiver).enclosing?
      m.frames.size = some c.frame := by
    rw [Frames.enclosing?_define, Frames.enclosing?_make_self]
  refine .inner link made (fun name ready => ?_) ((stands.mono new).mono changes)
  rw [get?_thisScope ready]
  exact holds

/-- What a field holds fits, and an instance without fields has none to ask for. -/
theorem Sane.fitsField (sane : Sane h m) {i : Instance} {name : String} {v : Value}
    (found : (m.fieldsOf i).get? name = some v) : Fits h m.frames v :=
  Machine.forall_fieldsOf sane.fields found

/-- A method is bound on the spot.  That needs a frame which stands for the scope of its receiver,
which is what is asked of the history here. -/
theorem upholds_getProperty (sane : Sane h m) {i : Instance} {name : Token}
    (fits : ClassFits h m.frames i.ofClass)
    (made : ∀ method, (m.fieldsOf i).get? name.lexeme = none →
      i.ofClass.findMethod? name.lexeme = some method →
        h.made (.receiver method.decl) m.frames.size) :
    Upholds h (getProperty i name) m fun v m' => Fits h m'.frames v := by
  unfold getProperty
  refine (Upholds.get sane).bind ?_
  rintro _ _ - - ⟨rfl, rfl⟩
  split
  · next v found => exact .pure sane (sane.fitsField found)
  · next absent =>
    split
    · next method found =>
      have fitsReceiver : Fits h m.frames (.object i) := fits
      refine (upholds_bindThis sane (fits _ _ found) fitsReceiver (made method absent found)).bind ?_
      intro bound m' _ sane' fits
      exact .pure sane' fits.1
    · exact .fail sane _ _

/-- A property of anything but an instance is an error of the program. -/
theorem upholds_propertyOf (sane : Sane h m) {object : Value} {name : Token}
    (fits : Fits h m.frames object)
    (made : ∀ i method, object = .object i → (m.fieldsOf i).get? name.lexeme = none →
      i.ofClass.findMethod? name.lexeme = some method →
        h.made (.receiver method.decl) m.frames.size) :
    Upholds h (propertyOf object name) m fun v m' => Fits h m'.frames v := by
  cases object with
  | object i => exact upholds_getProperty sane fits fun method => made i method rfl
  | _ => exact .fail sane _ _

/-- `super` finds its class, and `this` one frame further in.  The distance of `this` is that of
`super` less one, which is computed on integers; `super` is never at distance zero, so it stays a
distance. -/
theorem upholds_superMethod (sane : Sane h m) {f g k : FrameId} {d : Nat} {name : Token}
    (outer : m.frames.ancestor? (d + 1) f = some g)
    (heldSuper : (m.frames.local? g "super").isSome = true)
    (inner : m.frames.ancestor? d f = some k)
    (heldThis : (m.frames.local? k "this").isSome = true)
    (made : ∀ c receiver method, m.frames.getAt f ((d + 1 : Nat) : Int) "super" = .ok (.cls c) →
      m.frames.getAt f (((d + 1 : Nat) : Int) - 1) "this" = .ok receiver →
      c.findMethod? name.lexeme = some method → h.made (.receiver method.decl) m.frames.size) :
    Upholds h (superMethod f name (some (d + 1))) m fun v m' => Fits h m'.frames v := by
  obtain ⟨parent, heldSuper⟩ := Option.isSome_iff_exists.mp heldSuper
  obtain ⟨receiver, heldThis⟩ := Option.isSome_iff_exists.mp heldThis
  obtain ⟨c, rfl⟩ := sane.super g parent heldSuper
  -- the distance of `this` is computed from that of `super`
  have back : ((d + 1 : Nat) : Int) - 1 = (d : Int) := by omega
  rw [back] at made
  have fits : ClassFits h m.frames c := sane.held g _ _ heldSuper
  have gotSuper := upholds_getAt sane outer (Option.isSome_of_eq_some heldSuper)
  refine gotSuper.bind fun v m₁ _ _ same => ?_
  obtain ⟨rfl, same⟩ := same
  cases heldSuper.symm.trans same
  simp only [back]
  have gotThis := upholds_getAt sane inner (Option.isSome_of_eq_some heldThis)
  refine gotThis.bind fun v m₂ _ _ same => ?_
  obtain ⟨rfl, same⟩ := same
  cases heldThis.symm.trans same
  split
  · next method found =>
    have origin := made c receiver method (getAt_of_held outer heldSuper)
      (getAt_of_held inner heldThis) found
    refine (upholds_bindThis sane (fits _ _ found) (sane.held k _ _ heldThis) origin).bind ?_
    intro bound m' _ sane' fits
    exact .pure sane' fits.1
  · exact .fail sane _ _

end Methods

/-! ### Operators -/

/-- Operators return values that fit, and none of those in a program is unknown. -/
theorem upholds_orFailure {m : Machine} {operator : Token} {result : Except Operator.Failure Value}
    (sane : Sane h m) (fits : ∀ v, result = .ok v → Fits h m.frames v)
    (known : ∀ fault, result ≠ .error (.fault fault)) :
    Upholds h (orFailure operator result) m fun v m' => Fits h m'.frames v := by
  rcases result with (cause | fault) | v
  · exact .fail sane _ _
  · exact absurd rfl (known fault)
  · exact .pure sane (fits v rfl)

/-! ### Parameters -/

/-- Parameters are bound to arguments that fit; the induction goes from one machine to the next.
The arguments behind fit there as well, since binding a parameter only adds a name to the frame. -/
theorem upholds_bindParams {f : FrameId} : ∀ {params : List Token} {arguments : List Value}
    {m : Machine}, Sane h m → (∀ param ∈ params, Plain param.lexeme) →
      (∀ v ∈ arguments, Fits h m.frames v) →
      Upholds h (bindParams f params arguments) m fun _ _ => True
  | [], _, _, sane, _, _ => .pure sane trivial
  | _ :: _, [], _, sane, _, _ => .pure sane trivial
  | param :: params, argument :: arguments, m, sane, plain, fits => by
    have here := plain param List.mem_cons_self
    have defined := upholds_define sane (fits argument List.mem_cons_self) here.2 f
    refine defined.bind fun _ m₁ _ sane₁ same => ?_
    have changes : m.frames.Changes f [param.lexeme] m₁.frames := by
      rw [same]
      exact .define (List.mem_singleton_self _) _
    refine upholds_bindParams sane₁ (fun other mem => plain other (List.mem_cons_of_mem _ mem)) ?_
    intro v mem
    exact (fits v (List.mem_cons_of_mem _ mem)).mono changes

/-! ### Classes -/

section Classes

variable {m : Machine} {f : FrameId} {sites : List Site} {scopes : List (Bindings Bool)}

/-- The scope that holds `super`. -/
def superScope : Bindings Bool :=
  Bindings.empty.put "super" true

/-- What stands around the methods of a class, apart from the scope of `this`: one thing more if
there is a superclass. -/
def aroundMethods {α β : Type} (superclass : Option β) (extra : α) (outer : List α) : List α :=
  match superclass with
  | none => outer
  | some _ => extra :: outer

/-- The frame in which methods are made stands for the scopes around them, with one for `super` if
there is a superclass. -/
theorem upholds_methodFrame (sane : Sane h m) {superclass : Option Class} (site : Site)
    (stands : Stands h.made m.frames f sites scopes)
    (fits : ∀ parent, superclass = some parent → ClassFits h m.frames parent)
    (made : superclass.isSome = true → h.made site m.frames.size) :
    Upholds h (methodFrame f superclass) m fun g m' =>
      Stands h.made m'.frames g (aroundMethods superclass site sites)
        (aroundMethods superclass superScope scopes) ∧
      ∀ parent, superclass = some parent → ClassFits h m'.frames parent := by
  cases superclass with
  | none => exact .pure sane ⟨stands, fun _ none => by cases none⟩
  | some parent =>
    have new : m.frames.Changes m.frames.size [] (m.frames.make (some f)) := .make _
    have changes : (m.frames.make (some f)).Changes m.frames.size ["super"]
        ((m.frames.make (some f)).define m.frames.size "super" (.cls parent)) :=
      .define (List.mem_singleton_self "super") _
    have fits' : Fits h m.frames (.cls parent) := fits parent rfl
    let widened : Machine := { m with frames := m.frames.make (some f) }
    have sane' : Sane h widened := sane.make _
    have sane'' := sane'.define (f := m.frames.size) ((fits'.mono new).mono changes)
      (fun _ => ⟨parent, rfl⟩)
    refine ⟨sane'', ?_, fun p same => ?_⟩
    · have link : ((m.frames.make (some f)).define m.frames.size "super" (.cls parent)).enclosing?
          m.frames.size = some f := by
        rw [Frames.enclosing?_define, Frames.enclosing?_make_self]
      refine .inner link (made rfl) (fun name ready => ?_) ((stands.mono new).mono changes)
      have same : name = "super" := by
        unfold superScope at ready
        rw [Bindings.get?_put] at ready
        split at ready
        · assumption
        · simp at ready
      rw [same, Frames.local?_define_self _ (by simp)]
      rfl
    · cases same
      exact ((fits parent rfl).mono new).mono changes

/-- The methods that are made are those of the declarations, made in the given frame.  Nothing
else of the machine changes than the counter of identities, and a later method replaces one of
its name. -/
theorem ensures_makeMethods (g : FrameId) : ∀ (decls : List FunDecl) (methods : Bindings Closure)
    (m : Machine),
    Ensures (makeMethods g decls methods) m
      (fun all m' => (m'.frames = m.frames ∧ m'.fields = m.fields) ∧ ∀ name c,
        all.get? name = some c → methods.get? name = some c ∨ c.decl ∈ decls ∧ c.frame = g)
      fun _ _ => False
  | [], methods, m => ⟨⟨rfl, rfl⟩, fun _ _ found => .inl found⟩
  | decl :: rest, methods, m => by
    refine Ensures.mono (ensures_makeMethods g rest _ _) (fun all m' spec => ?_) fun _ _ no => no
    refine ⟨spec.1, fun name c found => ?_⟩
    rcases spec.2 name c found with found | ⟨mem, made⟩
    · rw [Bindings.get?_put] at found
      split at found
      · cases found
        exact .inr ⟨List.mem_cons_self, rfl⟩
      · exact .inl found
    · exact .inr ⟨List.mem_cons_of_mem _ mem, made⟩

/-- A class fits if its own methods do and the class it inherits from does. -/
theorem classFits_mk {id : Nat} {name : String} {superclass : Option Class}
    {methods : Bindings Closure}
    (own : ∀ name c, methods.get? name = some c → MethodFits h frames c)
    (inherited : ∀ parent, superclass = some parent → ClassFits h frames parent) :
    ClassFits h frames ⟨id, name, superclass, methods⟩ := by
  intro sought method found
  rcases Class.own_or_inherited found with here | ⟨parent, same, found⟩
  · exact own sought method here
  · exact inherited parent same sought method found

/-- Methods as they were resolved: inside the scope of `this`, inside some further scopes. -/
def Resolved (h : History) (sites : List Site) (scopes : List (Bindings Bool))
    (members : List FunDecl) : Prop :=
  ∀ decl ∈ members, ∃ s context kind source s',
    h.seen ⟨.receiver decl :: sites, s, .function context kind source⟩ ∧
    Yields (function context kind source) s decl s' ∧ s.scopes = thisScope :: scopes

/-- Making a class keeps a machine sane if its methods were resolved in its scopes.  The class fits
since each of its own methods does, and those that are inherited did so before. -/
theorem upholds_makeClass (sane : Sane h m) {name : Token} (superclass : Option Class)
    {decls : List FunDecl} (site : Site) (plain : name.lexeme ≠ "super")
    (stands : Stands h.made (m.frames.define f name.lexeme .nil) f sites scopes)
    (fits : ∀ parent, superclass = some parent → ClassFits h m.frames parent)
    (made : superclass.isSome = true → h.made site m.frames.size)
    (resolved : Resolved h (aroundMethods superclass site sites)
      (aroundMethods superclass superScope scopes) decls) :
    Upholds h (makeClass f name superclass decls) m fun _ _ => True := by
  have changes : m.frames.Changes f [name.lexeme] (m.frames.define f name.lexeme .nil) :=
    .define (List.mem_singleton_self _) _
  let named : Machine := { m with frames := m.frames.define f name.lexeme .nil }
  -- the name is bound to nothing first, so that the methods can refer to their class
  have saneNamed : Sane h named := sane.define trivial fun same => absurd same plain
  have framed : Upholds h (methodFrame f superclass) named _ :=
    upholds_methodFrame saneNamed site stands
      (fun parent same => (fits parent same).mono changes)
      (fun derived => by
        change h.made site (Frames.size (Frames.define _ _ _ _))
        rw [Frames.size_define]
        exact made derived)
  change Upholds h (methodFrame f superclass >>= _) named _
  refine framed.bind fun g m₁ _ sane₁ inner => ?_
  obtain ⟨standsInner, fitsParent⟩ := inner
  have methodsMade := ensures_makeMethods g decls {} m₁
  refine Ensures.bind (methodsMade.mono (fun _ _ spec => spec) fun _ _ no => no.elim) ?_
  intro methods m₂ _ spec
  obtain ⟨⟨sameFrames, sameFields⟩, each⟩ := spec
  have fitsClass : ClassFits h m₂.frames ⟨m₂.made, name.lexeme, superclass, methods⟩ := by
    rw [sameFrames]
    refine classFits_mk (fun sought c found => ?_) fitsParent
    -- a later method of the same name replaces an earlier one; each of them was resolved
    rcases each sought c found with none | ⟨mem, inFrame⟩
    · simp at none
    · obtain ⟨s, context, kind, source, s', seen, yields, same⟩ := resolved c.decl mem
      refine ⟨_, s, context, kind, source, s', _, seen, yields, same, ?_⟩
      rw [inFrame]
      exact standsInner
  let counted : Machine := { m₂ with made := m₂.made + 1 }
  have saneCounted : Sane h counted := sane₁.congr sameFrames sameFields
  have fitsValue : Fits h counted.frames
      (.cls ⟨m₂.made, name.lexeme, superclass, methods⟩) := fitsClass
  have assigned := upholds_assign saneCounted fitsValue plain f
  change Upholds h (assign f name _ >>= _) counted _
  refine assigned.bind fun _ m₃ _ sane₃ _ => ?_
  exact ⟨sane₃.note _, trivial⟩

end Classes

end Execution
end Arbor
