import Arbor.Proofs.Class
import Arbor.Proofs.Execution.Keywords
import Mathlib.Data.Set.Insert

/-!
# What a run has made

Frames and classes are made and never changed.  A *ledger* lists them, each frame with the frame
around it.  It is no part of the machine: a class that nothing refers to any more is still listed, so
classes that turn up at different times of a run can be compared.

A ledger *tallies* with a machine if it lists the frames of the machine and all classes that its
values bring, and if what it lists came in order: the frame around a frame has a smaller number, the
class that a class inherits from a smaller identity.  Whatever runs only adds to a ledger.

## Main definitions

* `Making`, `Ledger`: what is made, and lists of it.
* `Value.Known`, `Completion.Known`: what brings nothing that is not listed.
* `Tallies`: ledgers that list all there is on a machine.
* `Ledger.Knows`: the machines of the past.
* `Records`: computations that only add to a ledger, and whose calls run on machines it knows.

## Main statements

* `Tallies.makeFrame`, `Tallies.makeClass`: the two ways in which a ledger grows.
* `Records.bind`: computations one after the other.
* `records_bindThis`, `records_makeClass` and the others: the operations of the machine.
-/

namespace Arbor

/-- What is made once and for all. -/
inductive Making where
  | frame (f : FrameId) (inside : Option FrameId)
  | cls (c : Class)

/-- What has been made so far. -/
abbrev Ledger := Set Making

/-- A frame that is listed. -/
def Ledger.There (l : Ledger) (f : FrameId) : Prop :=
  ∃ inside, Making.frame f inside ∈ l

/-- A value that brings listed classes, or a function made in a listed frame. -/
def Value.Known (l : Ledger) : Value → Prop
  | .closure c => l.There c.frame
  | .cls c => .cls c ∈ l
  | .object i => .cls i.ofClass ∈ l
  | _ => True

/-- A completion that hands on such a value, if it hands one on. -/
def Completion.Known (l : Ledger) : Completion → Prop
  | .returned v => v.Known l
  | _ => True

section Known

variable {l l' : Ledger}

/-- A frame that is listed stays listed. -/
theorem Ledger.There.mono {f : FrameId} (there : l.There f) (more : l ⊆ l') : l'.There f := by
  obtain ⟨inside, mem⟩ := there
  exact ⟨inside, more mem⟩

/-- A value that brings nothing new brings nothing new later either. -/
theorem Value.Known.mono {v : Value} (known : v.Known l) (more : l ⊆ l') : v.Known l' := by
  cases v with
  | closure c => exact Ledger.There.mono known more
  | cls c => exact more known
  | object i => exact more known
  | _ => trivial

/-- Values without functions or classes in them bring nothing at all. -/
theorem Value.Known.of_plain {v : Value} (plain : v.isPlain = true) : v.Known l := by
  cases v with
  | closure | cls | object => cases plain
  | _ => trivial

/-- In particular constants of the program bring nothing. -/
theorem Value.known_ofConstant (value : Constant) : (Value.ofConstant value).Known l := by
  cases value <;> trivial

end Known

namespace Execution

open Eval Stateful

/-- A ledger that lists the frames of a machine and all classes its values bring, each behind what it
refers to. -/
structure Tallies (l : Ledger) (m : Machine) : Prop where
  frame : ∀ f inside,
    Making.frame f inside ∈ l ↔ f < m.frames.size ∧ m.frames.enclosing? f = inside
  earlier : ∀ f g, Making.frame f (some g) ∈ l → g < f
  globals : Machine.globals < m.frames.size
  counted : ∀ c, Making.cls c ∈ l → c.id < m.made
  single : ∀ c c', Making.cls c ∈ l → Making.cls c' ∈ l → c.id = c'.id → c = c'
  parent : ∀ c parent, Making.cls c ∈ l → c.superclass = some parent →
    Making.cls parent ∈ l ∧ parent.id < c.id
  methods : ∀ c, Making.cls c ∈ l → ∀ name method, c.methods.get? name = some method →
    l.There method.frame
  held : ∀ f name v, m.frames.local? f name = some v → v.Known l
  fields : ∀ (i : Nat) fields name v, m.fields[i]? = some fields → fields.get? name = some v →
    v.Known l

namespace Tallies

variable {l : Ledger} {m m' : Machine}

/-- The frames that are listed are those that the machine has, and no others. -/
theorem there_iff (tallies : Tallies l m) {f : FrameId} : l.There f ↔ f < m.frames.size := by
  constructor
  · rintro ⟨inside, mem⟩
    exact ((tallies.frame f inside).mp mem).1
  · intro there
    exact ⟨_, (tallies.frame f _).mpr ⟨there, rfl⟩⟩

/-- The classes up the chain of a listed class are listed.  The induction is on the distance, since
a class is listed together with the one it inherits from. -/
theorem ancestor (tallies : Tallies l m) {c k : Class} (listed : Making.cls c ∈ l) {d : Nat}
    (reached : c.ancestor? d = some k) : Making.cls k ∈ l := by
  induction d generalizing c with
  | zero =>
    cases reached
    exact listed
  | succ d ih =>
    cases link : c.superclass with
    | none =>
      rw [Class.ancestor?_succ_of_none link] at reached
      cases reached
    | some parent =>
      rw [Class.ancestor?_succ link] at reached
      exact ih (tallies.parent c parent listed link).1 reached

/-- A method that a class has or inherits was made in a frame that is listed. -/
theorem method (tallies : Tallies l m) {c : Class} (listed : Making.cls c ∈ l) {name : String}
    {method : Closure} (found : c.findMethod? name = some method) : l.There method.frame := by
  obtain ⟨d, ⟨k, reached, declared⟩, -⟩ := Class.exists_nearest found
  exact tallies.methods k (tallies.ancestor listed reached) name method declared

/-- The fields of an instance. -/
theorem field (tallies : Tallies l m) {i : Instance} {name : String} {v : Value}
    (found : (m.fieldsOf i).get? name = some v) : v.Known l :=
  Machine.forall_fieldsOf tallies.fields found

/-! ### Changes of a machine -/

/-- Only frames, fields and the count of what was made matter.  The count may have grown, since it
only bounds the numbers of classes. -/
theorem congr (tallies : Tallies l m) (sameFrames : m'.frames = m.frames)
    (sameFields : m'.fields = m.fields) (counted : m.made ≤ m'.made) : Tallies l m' := by
  obtain ⟨frame, earlier, globals, before, single, parent, methods, held, fields⟩ := tallies
  refine ⟨?_, earlier, ?_, ?_, single, parent, methods, ?_, ?_⟩
  · rwa [sameFrames]
  · rwa [sameFrames]
  · intro c listed
    exact Nat.lt_of_lt_of_le (before c listed) counted
  · rwa [sameFrames]
  · rwa [sameFields]

/-- Binding a value that brings nothing new leaves the ledger as it is.  No frame is made, no link
changes, and all other bindings are those that were there. -/
theorem define (tallies : Tallies l m) {value : Value} (known : value.Known l) (f : FrameId)
    (name : String) : Tallies l { m with frames := m.frames.define f name value } := by
  obtain ⟨frame, earlier, globals, counted, single, parent, methods, held, fields⟩ := tallies
  refine ⟨?_, earlier, ?_, counted, single, parent, methods, ?_, fields⟩
  · intro g inside
    rw [Frames.size_define, Frames.enclosing?_define]
    exact frame g inside
  · rwa [Frames.size_define]
  · intro g other v holds
    rcases Frames.local?_of_define holds with ⟨-, rfl⟩ | before
    · exact known
    · exact held g other v before

/-- Instances are not listed; only their classes are. -/
theorem pushFields (tallies : Tallies l m) : Tallies l { m with fields := m.fields.push {} } :=
  { tallies with fields := Machine.forall_fields_push tallies.fields }

/-- A field may be set to any value that brings nothing new. -/
theorem putField (tallies : Tallies l m) {value : Value} (known : value.Known l) (i : Nat)
    (name : String) :
    Tallies l { m with fields := m.fields.modify i fun fields => fields.put name value } :=
  { tallies with fields := Machine.forall_fields_put tallies.fields known i name }

/-- A frame is made inside one that is there.  The entry is the only one for the number that is
given to the frame, since the ledger lists just the frames below it; everything that was held before
is held as before, and by listed frames. -/
theorem makeFrame (tallies : Tallies l m) {outer : FrameId} (there : l.There outer) :
    Tallies (insert (.frame m.frames.size (some outer)) l)
      { m with frames := m.frames.make (some outer) } := by
  have before : outer < m.frames.size := tallies.there_iff.mp there
  have more := Set.subset_insert (Making.frame m.frames.size (some outer)) l
  have listed {c : Class} (mem : Making.cls c ∈ insert (.frame m.frames.size (some outer)) l) :
      Making.cls c ∈ l := mem.resolve_left nofun
  refine ⟨?_, ?_, ?_, fun c mem => tallies.counted c (listed mem),
    fun c c' mem mem' => tallies.single c c' (listed mem) (listed mem'), ?_, ?_, ?_, ?_⟩
  · intro f inside
    rw [Set.mem_insert_iff, tallies.frame, Frames.size_make]
    by_cases new : f = m.frames.size
    · subst new
      simp [Eq.comm]
    · have less : f < m.frames.size + 1 ↔ f < m.frames.size := by
        rw [Nat.lt_succ_iff_lt_or_eq]
        exact or_iff_left new
      simp [Frames.enclosing?_make_of_ne _ _ new, new, less]
  · intro f g mem
    rcases mem with new | old
    · cases new
      exact before
    · exact tallies.earlier f g old
  · exact Nat.lt_of_lt_of_eq (Nat.lt_succ_of_lt tallies.globals) (Frames.size_make ..).symm
  · intro c parent mem same
    obtain ⟨above, less⟩ := tallies.parent c parent (listed mem) same
    exact ⟨more above, less⟩
  · intro c mem name method own
    exact (tallies.methods c (listed mem) name method own).mono more
  · intro f name v holds
    rw [Frames.local?_make] at holds
    exact (tallies.held f name v holds).mono more
  · intro i fields name v at_i holds
    exact (tallies.fields i fields name v at_i holds).mono more

/-- A class is made with the next number for its identity.  All classes that are listed have smaller
ones, so that no two of them share an identity, and the superclass is one of these. -/
theorem makeClass (tallies : Tallies l m) {c : Class} (fresh : c.id = m.made)
    (inherited : ∀ parent, c.superclass = some parent → Making.cls parent ∈ l)
    (own : ∀ name method, c.methods.get? name = some method → l.There method.frame) :
    Tallies (insert (.cls c) l) { m with made := m.made + 1 } := by
  have more := Set.subset_insert (Making.cls c) l
  have listed {f : FrameId} {inside : Option FrameId}
      (mem : Making.frame f inside ∈ insert (.cls c) l) : Making.frame f inside ∈ l :=
    mem.resolve_left nofun
  refine ⟨?_, fun f g mem => tallies.earlier f g (listed mem), tallies.globals, ?_, ?_, ?_, ?_, ?_,
    ?_⟩
  · intro f inside
    rw [← tallies.frame]
    exact ⟨listed, fun mem => more mem⟩
  · intro k mem
    rcases mem with new | old
    · cases new
      exact Nat.lt_succ_of_le (Nat.le_of_eq fresh)
    · exact Nat.lt_succ_of_lt (tallies.counted k old)
  · -- the identities of the classes before are smaller
    intro k k' mem mem' same
    rcases mem with new | old <;> rcases mem' with new' | old'
    · cases new
      cases new'
      rfl
    · cases new
      exact absurd (tallies.counted k' old') (by omega)
    · cases new'
      exact absurd (tallies.counted k old) (by omega)
    · exact tallies.single k k' old old' same
  · intro k parent mem same
    rcases mem with new | old
    · cases new
      have above := inherited parent same
      exact ⟨more above, Nat.lt_of_lt_of_eq (tallies.counted parent above) fresh.symm⟩
    · obtain ⟨above, less⟩ := tallies.parent k parent old same
      exact ⟨more above, less⟩
  · intro k mem name method declared
    rcases mem with new | old
    · cases new
      exact (own name method declared).mono more
    · exact (tallies.methods k old name method declared).mono more
  · intro f name v holds
    exact (tallies.held f name v holds).mono more
  · intro i fields name v at_i holds
    exact (tallies.fields i fields name v at_i holds).mono more

/-- On a machine that has run nothing there is the frame of the globals.  It holds the function that
reads the clock, which refers to no frame and no class. -/
theorem fresh (clock : Clock) (traceLevel : Nat) :
    Tallies {.frame Machine.globals none} (Machine.fresh clock traceLevel) := by
  refine ⟨?_, nofun, Nat.one_pos, nofun, nofun, nofun, nofun, ?_, ?_⟩
  · intro f inside
    have link : (Machine.fresh clock traceLevel).frames.enclosing? Machine.globals = none := by
      simp [Machine.fresh, Machine.globals]
      rfl
    have one : (Machine.fresh clock traceLevel).frames.size = 1 := rfl
    rw [one, Nat.lt_one_iff]
    constructor
    · intro mem
      cases mem
      exact ⟨rfl, link⟩
    · rintro ⟨rfl, rfl⟩
      exact congrArg (Making.frame 0) link
  · intro f name v holds
    rcases Frames.local?_of_define holds with ⟨-, rfl⟩ | before
    · trivial
    · rw [Frames.local?_make] at before
      simp [Frames.empty, Frames.local?] at before
  · intro i fields name v at_i
    simp [Machine.fresh] at at_i

end Tallies

/-! ### The past -/

/-- A ledger knows a machine with some values in hand if a part of it tallied with the machine. -/
def Knows (l : Ledger) (m : Machine) (values : List Value) : Prop :=
  ∃ past ⊆ l, Tallies past m ∧ ∀ v ∈ values, v.Known past

/-- A machine of the past is still one when more has been listed since. -/
theorem Knows.mono {l l' : Ledger} {m : Machine} {values : List Value} (knows : Knows l m values)
    (more : l ⊆ l') : Knows l' m values := by
  obtain ⟨past, part, rest⟩ := knows
  exact ⟨past, part.trans more, rest⟩

/-- The values that a call is made with. -/
def Task.values : Task → List Value
  | .call callee arguments _ | .invoke callee arguments => callee :: arguments
  | _ => []

/-- A ledger knows the machine that a call is made on, and the one that it leaves behind. -/
structure Recorded (turns : Nat) (l : Ledger) (M : Moment) : Prop where
  made : Knows l M.machine M.task.values
  left : Knows l (M.left turns) []

/-- So is a call: the machines it ran on remain known. -/
theorem Recorded.mono {turns : Nat} {l l' : Ledger} {M : Moment} (recorded : Recorded turns l M)
    (more : l ⊆ l') : Recorded turns l' M :=
  ⟨recorded.made.mono more, recorded.left.mono more⟩

/-! ### Computations that only add to a ledger -/

/-- Started on `m`, `x` only adds to a ledger, however it ends, and `returns` holds of what it
returns.  The new ledger knows the machines of `calls`, which `x` makes, and of all calls below. -/
def Records {α : Type} (turns : Nat) (l : Ledger) (x : Eval α) (m : Machine)
    (calls : Moment → Prop) (returns : Ledger → α → Prop) : Prop :=
  ∃ l', l ⊆ l' ∧
    Ensures x m (fun a m' => Tallies l' m' ∧ returns l' a) (fun _ m' => Tallies l' m') ∧
    ∀ M, calls M → ∀ M', Reaches turns M M' → Recorded turns l' M'

/-- No call of the evaluator at all. -/
def noCall (_ : Moment) : Prop :=
  False

variable {turns : Nat} {l : Ledger} {m : Machine}

namespace Records

variable {α β : Type} {x : Eval α} {k : α → Eval β} {calls calls' : Moment → Prop}
variable {returns : Ledger → α → Prop} {after : Ledger → β → Prop}

/-- It may be said of fewer calls. -/
theorem fewer (records : Records turns l x m calls returns) (sub : ∀ M, calls' M → calls M) :
    Records turns l x m calls' returns := by
  obtain ⟨l', more, ensures, covers⟩ := records
  exact ⟨l', more, ensures, fun M made => covers M (sub M made)⟩

/-- The calls of two computations one after the other: those of the first one, and if it returns
those of the second one. -/
theorem bind (calls₂ : α → Machine → Moment → Prop) (first : Records turns l x m calls returns)
    (second : ∀ a m₁ l₁, x.run m = .ok a m₁ → l ⊆ l₁ → Tallies l₁ m₁ → returns l₁ a →
      Records turns l₁ (k a) m₁ (calls₂ a m₁) after) :
    Records turns l (x >>= k) m
      (fun M => calls M ∨ ∃ a m₁, x.run m = .ok a m₁ ∧ calls₂ a m₁ M) after := by
  obtain ⟨l₁, more, ensures, covers⟩ := first
  cases ran : x.run m with
  | ok a m₁ =>
    obtain ⟨tallies, known⟩ := ensures.of_ok ran
    obtain ⟨l₂, more₂, ensures₂, covers₂⟩ := second a m₁ l₁ ran more tallies known
    refine ⟨l₂, more.trans more₂, ?_, ?_⟩
    · unfold Ensures
      rw [EStateM.run_bind, ran]
      exact ensures₂
    · rintro M (made | ⟨a', m', ran', made⟩) M' reaches
      · exact (covers M made M' reaches).mono more₂
      · cases ran'
        exact covers₂ M made M' reaches
  | error abort m₁ =>
    refine ⟨l₁, more, ?_, ?_⟩
    · unfold Ensures
      rw [EStateM.run_bind, ran]
      exact ensures.of_error ran
    · rintro M (made | ⟨a', m', ran', -⟩)
      · exact covers M made
      · cases ran'

/-- Nothing is called behind the first one. -/
theorem andThen (first : Records turns l x m calls returns)
    (second : ∀ a m₁ l₁, x.run m = .ok a m₁ → l ⊆ l₁ → Tallies l₁ m₁ → returns l₁ a →
      Records turns l₁ (k a) m₁ noCall after) : Records turns l (x >>= k) m calls after :=
  (first.bind (fun _ _ => noCall) second).fewer fun _ made => .inl made

/-- A first part that makes no call, and is known to return. -/
theorem andThenFrom {a : α} {m₁ : Machine} (first : Records turns l x m noCall returns)
    (ran : x.run m = .ok a m₁) (rest : ∀ l₁, l ⊆ l₁ → Tallies l₁ m₁ → returns l₁ a →
      Records turns l₁ (k a) m₁ calls after) : Records turns l (x >>= k) m calls after := by
  refine (first.bind (fun _ _ => calls) fun a' m' l₁ ran' more tallies known => ?_).fewer ?_
  · cases ran.symm.trans ran'
    exact rest l₁ more tallies known
  · intro M made
    exact .inr ⟨a, m₁, ran, made⟩

/-- A computation that makes no call. -/
theorem adds {l' : Ledger} (more : l ⊆ l') (ensures : Ensures x m
    (fun a m' => Tallies l' m' ∧ returns l' a) fun _ m' => Tallies l' m') :
    Records turns l x m noCall returns :=
  ⟨l', more, ensures, fun _ none => none.elim⟩

/-- What is given without running makes nothing, and calls nothing. -/
theorem pure {a : α} (tallies : Tallies l m) (holds : returns l a) :
    Records turns l (Pure.pure a) m noCall returns :=
  adds Set.Subset.rfl ⟨tallies, holds⟩

/-- Neither does stopping, for whatever reason. -/
theorem throw (tallies : Tallies l m) (abort : Abort) :
    Records turns l (MonadExcept.throw abort : Eval α) m noCall returns :=
  adds Set.Subset.rfl tallies

/-- Errors of the program are one way to stop. -/
theorem fail (tallies : Tallies l m) (line : Int) (cause : RuntimeCause) :
    Records turns l (Eval.fail line cause) m noCall returns :=
  throw tallies _

/-- What looks at the machine first goes on with the machine it started on. -/
theorem read {k : Machine → Eval β} (rest : Records turns l (k m) m calls after) :
    Records turns l (get >>= k) m calls after :=
  rest

/-- A change of the machine that adds nothing to a ledger. -/
theorem modifyGet {f : Machine → α × Machine} (tallies : Tallies l (f m).2)
    (holds : returns l (f m).1) :
    Records turns l (MonadState.modifyGet f : Eval α) m noCall returns :=
  adds Set.Subset.rfl ⟨tallies, holds⟩

/-- A call is recorded with those it makes.  What a call reaches is either the call itself, or is
reached by one that it starts. -/
theorem whole (M : Moment) (records : Records turns l x M.machine (Starts turns M) returns)
    (tallies : Tallies l M.machine) (known : ∀ v ∈ M.task.values, v.Known l)
    (left : M.left turns = Execution.left x M.machine) :
    Records turns l x M.machine (· = M) returns := by
  obtain ⟨l', more, ensures, covers⟩ := records
  refine ⟨l', more, ensures, ?_⟩
  intro M₁ same M' reaches
  rw [same] at reaches
  rcases reaches.cases_head with rfl | ⟨next, starts, rest⟩
  · refine ⟨⟨l, more, tallies, known⟩, l', Set.Subset.rfl, ?_, List.forall_mem_nil _⟩
    rw [left]
    cases ran : x.run M.machine with
    | ok a m' =>
      rw [left_of_ok ran]
      exact (ensures.of_ok ran).1
    | error abort m' =>
      rw [left_of_error ran]
      exact ensures.of_error ran
  · exact covers next starts M' rest

end Records

/-! ### Operations of the machine -/

section Operations

theorem records_note (tallies : Tallies l m) (event : Event) :
    Records turns l (note event) m noCall fun _ _ => True :=
  .modifyGet (tallies.congr rfl rfl (Nat.le_refl _)) trivial

theorem records_print (tallies : Tallies l m) (value : Value) :
    Records turns l (print value) m noCall fun _ _ => True :=
  .modifyGet (tallies.congr rfl rfl (Nat.le_refl _)) trivial

/-- The clock shows a number, which brings nothing. -/
theorem records_readClock (tallies : Tallies l m) :
    Records turns l readClock m noCall Value.Known :=
  .modifyGet (tallies.congr rfl rfl (Nat.le_refl _)) trivial

/-- A frame is made inside one that is listed, and is listed behind it. -/
theorem records_newFrame (tallies : Tallies l m) {outer : FrameId} (there : l.There outer) :
    Records turns l (newFrame outer) m noCall Ledger.There :=
  .adds (Set.subset_insert _ _) ⟨tallies.makeFrame there, _, Set.mem_insert _ _⟩

/-- Binding a known value adds nothing, and that the ledger still tallies is all there is to
show. -/
theorem records_define (tallies : Tallies l m) {value : Value} (known : value.Known l)
    (f : FrameId) (name : String) :
    Records turns l (define f name value) m noCall fun _ _ => True :=
  .modifyGet (tallies.define known f name) trivial

/-- A function takes a number, but it is the frame it is made in that has to be listed. -/
theorem records_newClosure (tallies : Tallies l m) (decl : FunDecl) {f : FrameId}
    (there : l.There f) (isInitializer : Bool) :
    Records turns l (newClosure decl f isInitializer) m noCall fun l c =>
      Value.Known l (.closure c) :=
  .adds Set.Subset.rfl ⟨tallies.congr rfl rfl (Nat.le_succ _), there⟩

/-- An instance brings the class it is of. -/
theorem records_newInstance (tallies : Tallies l m) {c : Class} (listed : Making.cls c ∈ l) :
    Records turns l (newInstance c) m noCall fun l i => Value.Known l (.object i) :=
  .modifyGet tallies.pushFields listed

/-- A field brings what it is set to, which is known already. -/
theorem records_setProperty (tallies : Tallies l m) {value : Value} (known : value.Known l)
    (i : Instance) (name : String) :
    Records turns l (setProperty i name value) m noCall fun _ _ => True :=
  .modifyGet (tallies.putField known i.id name) trivial

/-- What an operator returns holds no class and no function. -/
theorem records_orFailure (tallies : Tallies l m) (operator : Token)
    {result : Except Operator.Failure Value} (plain : ∀ v, result = .ok v → v.isPlain = true) :
    Records turns l (orFailure operator result) m noCall Value.Known := by
  rcases result with (cause | fault) | v
  · exact .fail tallies _ _
  · exact .throw tallies _
  · exact .pure tallies (.of_plain (plain v rfl))

/-- What is held at a distance is held by some frame, and so known. -/
theorem records_getAt (tallies : Tallies l m) (f : FrameId) (distance : Int) (name : String) :
    Records turns l (getAt f distance name) m noCall Value.Known := by
  change Records turns l (orFault (m.frames.getAt f distance name)) m noCall Value.Known
  unfold Frames.getAt
  cases found : m.frames.holderAt f distance name with
  | error fault => exact .throw tallies _
  | ok pair => exact .pure tallies (tallies.held _ _ _ (local?_of_holderAt found))

/-- So is what is held among the globals. -/
theorem records_getGlobal (tallies : Tallies l m) (name : Token) :
    Records turns l (getGlobal name) m noCall Value.Known := by
  change Records turns l (orFail name.line (m.frames.get Machine.globals name.lexeme)) m noCall _
  unfold Frames.get
  split
  · next v found =>
    obtain ⟨g, -, held⟩ := List.exists_of_findSome?_eq_some found
    exact .pure tallies (tallies.held g _ v held)
  · exact .fail tallies _ _

/-- So is what a reference refers to. -/
theorem records_lookUp (tallies : Tallies l m) (f : FrameId) (name : Token) (hops : Option Nat) :
    Records turns l (lookUp f name hops) m noCall Value.Known := by
  cases hops with
  | some hops => exact records_getAt tallies f hops name.lexeme
  | none => exact records_getGlobal tallies name

/-- An assignment changes where a known value is held. -/
theorem records_assign (tallies : Tallies l m) (f : FrameId) (name : Token) {value : Value}
    (known : value.Known l) : Records turns l (assign f name value) m noCall fun _ _ => True := by
  unfold assign
  refine .read ?_
  split
  · exact records_define tallies known _ _
  · exact .fail tallies _ _

/-- So does one at a distance.  It faults where the name is missing, and nothing is bound then. -/
theorem records_store (tallies : Tallies l m) (f : FrameId) (name : Token) {value : Value}
    (known : value.Known l) (hops : Option Nat) :
    Records turns l (store f name value hops) m noCall fun _ _ => True := by
  cases hops with
  | none => exact records_assign tallies _ name known
  | some hops =>
    change Records turns l (orFault (m.frames.holderAt f hops name.lexeme) >>= fun holder =>
      define holder.1 name.lexeme value) m noCall _
    cases m.frames.holderAt f hops name.lexeme with
    | error fault => exact .throw tallies _
    | ok holder => exact records_define tallies known _ _

/-- The frame of a method that is bound lies in the one the method was made in. -/
theorem records_bindThis (tallies : Tallies l m) {c : Closure} (there : l.There c.frame)
    {receiver : Value} (known : receiver.Known l) :
    Records turns l (bindThis c receiver) m noCall fun l bound =>
      Value.Known l (.closure bound) := by
  refine (records_newFrame tallies there).andThen fun f m₁ l₁ _ more tallies₁ there₁ => ?_
  refine (records_define tallies₁ (known.mono more) f "this").andThen ?_
  intro _ m₂ l₂ _ more₂ tallies₂ _
  exact records_newClosure tallies₂ c.decl (there₁.mono more₂) c.isInitializer

/-- A method found in a class, bound to a value. -/
theorem records_bound (tallies : Tallies l m) {c : Class} (listed : Making.cls c ∈ l)
    {name : String} {method : Closure} (found : c.findMethod? name = some method)
    {receiver : Value} (known : receiver.Known l) :
    Records turns l (do return .closure (← bindThis method receiver)) m noCall Value.Known := by
  refine (records_bindThis tallies (tallies.method listed found) known).andThen ?_
  intro bound m₁ l₁ _ _ tallies₁ known₁
  exact .pure tallies₁ known₁

/-- A property is a known field, or a listed method that is bound in a new frame.  Without either it
is an error, and nothing is made. -/
theorem records_propertyOf (tallies : Tallies l m) {object : Value} (known : object.Known l)
    (name : Token) : Records turns l (propertyOf object name) m noCall Value.Known := by
  cases object with
  | object i =>
    change Records turns l (getProperty i name) m noCall _
    unfold getProperty
    refine .read ?_
    split
    · next v found => exact .pure tallies (tallies.field found)
    · split
      · next method found => exact records_bound tallies known found known
      · exact .fail tallies _ _
  | _ => exact .fail tallies _ _

/-- A method of the superclass is found in a class that is listed, since the value of `super` is
held.  Binding it lists the frame that is made. -/
theorem records_superMethod (tallies : Tallies l m) (f : FrameId) (method : Token)
    (hops : Option Nat) : Records turns l (superMethod f method hops) m noCall Value.Known := by
  cases hops with
  | none => exact .throw tallies _
  | some hops =>
    refine (records_getAt tallies f hops "super").andThen fun parent m₁ l₁ _ _ tallies₁ known => ?_
    refine (records_getAt tallies₁ f _ "this").andThen ?_
    intro receiver m₂ l₂ _ more tallies₂ known₂
    cases parent with
    | cls c =>
      dsimp only
      split
      · next found => exact records_bound tallies₂ (more known) found known₂
      · exact .fail tallies₂ _ _
    | _ => exact .throw tallies₂ _

/-- Parameters are bound one by one, with the ledger carried along the induction. -/
theorem records_bindParams (f : FrameId) : ∀ {l : Ledger} {m : Machine} (params : List Token)
    {arguments : List Value}, Tallies l m → (∀ v ∈ arguments, v.Known l) →
      Records turns l (bindParams f params arguments) m noCall fun _ _ => True
  | _, _, [], _, tallies, _ => .pure tallies trivial
  | _, _, _ :: _, [], tallies, _ => .pure tallies trivial
  | _, _, param :: params, argument :: arguments, tallies, known => by
    have first := known argument List.mem_cons_self
    refine (records_define tallies first f param.lexeme).andThen fun _ _ _ _ more tallies₁ _ => ?_
    refine records_bindParams f params tallies₁ fun v mem => ?_
    exact (known v (List.mem_cons_of_mem _ mem)).mono more

/-- What a call returns is known: it is what its body returned, or the receiver.  The receiver is
held by the frame of the method, so that it was known before. -/
theorem records_outcomeOf (tallies : Tallies l m) (c : Closure) {completion : Completion}
    (known : completion.Known l) :
    Records turns l (outcomeOf c completion) m noCall Value.Known := by
  unfold outcomeOf
  split
  · exact records_getAt tallies c.frame 0 "this"
  · cases completion with
    | normal => exact .pure tallies trivial
    | returned v => exact .pure tallies known
    | broke | continued => exact .throw tallies _

/-- What is taken for a superclass is a class that is listed, because the value was known. -/
theorem records_requireClass (tallies : Tallies l m) (name : Token) {value : Value}
    (known : value.Known l) :
    Records turns l (requireClass name value) m noCall fun l c => Making.cls c ∈ l := by
  cases value with
  | cls c => exact .pure tallies known
  | _ => exact .fail tallies _ _

/-- The methods of a class are made in the frame for them.  That frame is listed, and it is all that
a method refers to beside its declaration. -/
theorem records_makeMethods {f : FrameId} : ∀ {l : Ledger} {m : Machine} (decls : List FunDecl)
    {methods : Bindings Closure}, Tallies l m → l.There f →
      (∀ name c, methods.get? name = some c → l.There c.frame) →
      Records turns l (makeMethods f decls methods) m noCall fun l methods =>
        ∀ name c, methods.get? name = some c → l.There c.frame
  | _, _, [], _, tallies, _, known => .pure tallies known
  | _, _, decl :: rest, methods, tallies, there, known => by
    refine (records_newClosure tallies decl there _).andThen fun method _ l₁ _ more tallies₁ new => ?_
    refine records_makeMethods rest tallies₁ (there.mono more) ?_
    intro name c found
    rw [Bindings.get?_put] at found
    split at found
    · cases found
      exact new
    · exact (known name c found).mono more

/-- The frame for `super` is listed where one is made, and holds a class that is listed.  Without a
superclass the frame of the declaration itself is used. -/
theorem records_methodFrame (tallies : Tallies l m) {f : FrameId} (there : l.There f)
    {superclass : Option Class} (listed : ∀ parent, superclass = some parent → Making.cls parent ∈ l) :
    Records turns l (methodFrame f superclass) m noCall Ledger.There := by
  cases superclass with
  | none => exact .pure tallies there
  | some parent =>
    refine (records_newFrame tallies there).andThen fun inner _ l₁ _ more tallies₁ there₁ => ?_
    have known : Value.Known l₁ (.cls parent) := more (listed parent rfl)
    refine (records_define tallies₁ known inner "super").andThen fun _ _ _ _ more₂ tallies₂ _ => ?_
    exact .pure tallies₂ (there₁.mono more₂)

/-- A class is listed when it is made.  Its identity is the next number, and so larger than that of
the class it inherits from, which is listed already. -/
theorem records_newClass (tallies : Tallies l m) (name : String) {superclass : Option Class}
    (listed : ∀ parent, superclass = some parent → Making.cls parent ∈ l)
    {methods : Bindings Closure}
    (own : ∀ name c, methods.get? name = some c → l.There c.frame) :
    Records turns l (newClass name superclass methods) m noCall fun l c => Making.cls c ∈ l :=
  have made := tallies.makeClass (c := ⟨m.made, name, superclass, methods⟩) rfl listed own
  .adds (Set.subset_insert _ _) ⟨made, Set.mem_insert _ _⟩

/-- Declaring a class lists the frame of its methods and then the class.  The frame is listed when
the methods are made in it, and the superclass is listed because it was evaluated before. -/
theorem records_makeClass (tallies : Tallies l m) {f : FrameId} (there : l.There f) (name : Token)
    {superclass : Option Class} (decls : List FunDecl)
    (listed : ∀ parent, superclass = some parent → Making.cls parent ∈ l) :
    Records turns l (makeClass f name superclass decls) m noCall fun _ _ => True := by
  have nothing : Value.Known l .nil := trivial
  refine (records_define tallies nothing f _).andThen fun _ m₁ l₁ _ more₁ tallies₁ _ => ?_
  have listed₁ : ∀ parent, superclass = some parent → Making.cls parent ∈ l₁ :=
    fun parent same => more₁ (listed parent same)
  refine (records_methodFrame tallies₁ (there.mono more₁) listed₁).andThen ?_
  intro inner m₂ l₂ _ more₂ tallies₂ inside
  have noMethod (name : String) (c : Closure)
      (found : ({} : Bindings Closure).get? name = some c) : l₂.There c.frame := by
    simp at found
  refine (records_makeMethods decls tallies₂ inside noMethod).andThen ?_
  intro methods m₃ l₃ _ more₃ tallies₃ own
  have listed₃ : ∀ parent, superclass = some parent → Making.cls parent ∈ l₃ :=
    fun parent same => more₃ (more₂ (listed₁ parent same))
  refine (records_newClass tallies₃ name.lexeme listed₃ own).andThen ?_
  intro c m₄ l₄ _ _ tallies₄ made
  have known : Value.Known l₄ (.cls c) := made
  refine (records_assign tallies₄ f name known).andThen ?_
  intro _ m₅ l₅ _ _ tallies₅ _
  exact records_note tallies₅ _

end Operations

end Execution
end Arbor
