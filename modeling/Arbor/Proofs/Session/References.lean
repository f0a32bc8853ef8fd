import Arbor.Proofs.Session.Moments

/-!
# References in a session

What follows from running in lockstep with resolution for the references of accepted texts.  A read
never misses: wherever in a session the evaluator comes to a variable, to `this` or to `super`, its
name is held by the frame that was made for the scope in which the resolver found it.

Assignments are another matter.  A name is known to the resolver from the moment its declaration
begins, and nothing keeps an assignment in its initializer from being resolved to it; the frame does
not hold the name by then.  This is the only way in which an assignment misses.

## Main definitions

* `Expr.read?`: the references that read.

## Main statements

* `Session.reads_found`: reads find their names.
* `Session.assigns_found`: assignments do exactly if their names are ready.
-/

namespace Arbor

/-- The name that a reference reads and the distance it was given. -/
def Expr.read? : Expr → Option (String × Option Nat)
  | .var name hops => some (name.lexeme, hops)
  | .this keyword hops => some (keyword.lexeme, hops)
  | .super keyword _ hops => some (keyword.lexeme, hops)
  | _ => none

namespace Execution

open Eval Stateful Scope

variable {h : History} {m : Machine} {f : FrameId}

/-! ### Reads that raise no fault -/

/-- A computation that does not end in a fault. -/
def Sound {α : Type} (x : Eval α) (m : Machine) : Prop :=
  Ensures x m (fun _ _ => True) fun abort _ => ∀ fault, abort ≠ .fault fault

theorem Sound.ne_fault {α : Type} {x : Eval α} (sound : Sound x m) (fault : Fault)
    (m' : Machine) : x.run m ≠ .error (.fault fault) m' := by
  intro ran
  unfold Sound Ensures at sound
  rw [ran] at sound
  exact sound fault rfl

theorem sound_fail {α : Type} (line : Int) (cause : RuntimeCause) :
    Sound (fail line cause : Eval α) m :=
  fun _ same => nomatch same

theorem sound_getGlobal (name : Token) : Sound (getGlobal name) m := by
  change Sound (orFail name.line (m.frames.get Machine.globals name.lexeme)) m
  cases m.frames.get Machine.globals name.lexeme with
  | ok v => exact trivial
  | error cause => exact sound_fail _ _

theorem Finds.run_getAt {sites : List Site} {name : String} {d : Nat}
    (finds : Finds h m.frames f sites name d) :
    ∃ g v, m.frames.local? g name = some v ∧ (getAt f (d : Int) name).run m = .ok v m := by
  obtain ⟨g, site, reached, -, -, held⟩ := finds
  obtain ⟨v, held⟩ := Option.isSome_iff_exists.mp held
  exact ⟨g, v, held, run_getAt_of_held reached held⟩

/-- A reference that is found where its distance leads raises no fault when it is read. -/
theorem sound_lookUp {sites : List Site} {name : Token} {hops : Option Nat}
    (finds : ∀ d, hops = some d → Finds h m.frames f sites name.lexeme d) :
    Sound (lookUp f name hops) m := by
  cases hops with
  | none => exact sound_getGlobal name
  | some d =>
    obtain ⟨g, v, -, ran⟩ := (finds d rfl).run_getAt
    unfold lookUp Sound Ensures
    dsimp only
    rw [ran]
    trivial

/-- What `super` stands for is a class, so only the method can be missing in it, which is an error
of the program and no fault. -/
theorem sound_superMethod (sane : Sane h m) {sites : List Site} {method : Token} {d : Nat}
    (parent : Finds h m.frames f sites "super" (d + 1))
    (receiver : Finds h m.frames f sites "this" d) :
    Sound (superMethod f method (some (d + 1))) m := by
  obtain ⟨g, v, held, ran⟩ := parent.run_getAt
  obtain ⟨c, rfl⟩ := sane.super g v held
  obtain ⟨-, this, -, ranThis⟩ := receiver.run_getAt
  have inside : (((d + 1 : Nat) : Int) - 1) = (d : Int) := by omega
  unfold Sound Ensures superMethod
  rw [EStateM.run_bind, ran]
  dsimp only
  rw [inside, EStateM.run_bind, ranThis]
  dsimp only
  cases c.findMethod? method.lexeme with
  | none => exact sound_fail (m := m) (α := Value) method.line _
  | some found => exact trivial

/-- What storing at a distance does: the name is held there, or it is missing.  If it is missing
there is a fault, and nothing has changed. -/
theorem run_store_of_missing {name : Token} {v : Value} {d : Nat} {g : FrameId}
    (reached : m.frames.ancestor? d f = some g) (missing : m.frames.local? g name.lexeme = none) :
    (store f name v (some d)).run m = .error (.fault (.nameMissing name.lexeme d)) m := by
  have lost := holderAt_of_missing reached missing
  change (orFault (m.frames.holderAt f (d : Int) name.lexeme) >>= fun holder =>
    Eval.define holder.1 name.lexeme v).run m = _
  rw [lost]
  rfl

/-- A value that is stored where the name was found is the value of the name from then on. -/
theorem Finds.run_store {sites : List Site} {name : Token} {v : Value} {d : Nat}
    (finds : Finds h m.frames f sites name.lexeme d) :
    ∃ g m', m.frames.ancestor? d f = some g ∧ (store f name v (some d)).run m = .ok () m' ∧
      m'.frames.local? g name.lexeme = some v := by
  obtain ⟨g, site, reached, -, -, held⟩ := finds
  have there := Frames.lt_size_of_local? held
  obtain ⟨old, held⟩ := Option.isSome_iff_exists.mp held
  have found := holderAt_of_held reached held
  refine ⟨g, { m with frames := m.frames.define g name.lexeme v }, reached, ?_,
    Frames.local?_define_self _ there _ _⟩
  change (orFault (m.frames.holderAt f (d : Int) name.lexeme) >>= fun holder =>
    Eval.define holder.1 name.lexeme v).run m = _
  rw [found]
  rfl

/-- An assignment evaluates its value first, and then stores it. -/
theorem run_assign {turns room : Nat} {name : Token} {value : Expr} {hops : Option Nat} {v : Value}
    {m₁ : Machine} (ran : (evaluate turns room value f).run m = .ok v m₁) :
    (evaluate turns (room + 1) (.assign name value hops) f).run m
      = (store f name v hops >>= fun _ => pure v).run m₁ := by
  rw [evaluate, EStateM.run_bind, ran]

end Execution

namespace Session

open Execution Stateful Scope

/-- The second statement of a block that begins with a declaration is executed in the frame of the
block, where the variable is bound by then. -/
theorem occurs_in_block {s : Session} {text : String} {declared : Token} {st : Stmt}
    (outcome : (s.resolved text).outcome = .ok ⟨[.block [.varDecl declared none, st]]⟩) :
    ∃ f m, s.Occurs {} text ⟨9978, .execute st f, m⟩ ∧
      m.frames.local? f declared.lexeme = some .nil := by
  have enters : s.Occurs {} text ⟨9980,
      .execute (.block ([.varDecl declared none] ++ [st])) Machine.globals,
      (s.poised text).machine⟩ :=
    .intro outcome (List.nil_append _).symm rfl .refl
  generalize (s.poised text).machine = m at enters
  have runs := enters.starts (.block rfl)
  refine ⟨_, _, runs.starts (.statement rfl), ?_⟩
  have there : m.frames.size < (m.frames.make (some Machine.globals)).size := by simp
  exact Frames.local?_define_self _ there declared.lexeme .nil

section Reads

variable {steps before later : List Step} {step : Step} {clock : Clock} {traceLevel : Nat}
variable {room : Nat} {e : Expr} {f : FrameId} {m : Machine}

/-- Reads never miss.  Wherever in a session of accepted texts the evaluator comes to a variable,
`this` or `super`, the globals are as many links away as the resolver had scopes in hand when it
visited the reference.  A reference with a distance finds its name there, in the frame made for the
scope in which the resolver found it; `super` has a distance, and finds `this` one link less away.
So evaluating the reference raises no fault. -/
theorem reads_found (accepts : (start clock traceLevel).AcceptsAll steps)
    (split : steps = before ++ step :: later)
    (occurs : ((start clock traceLevel).after before).Occurs step.1 step.2
      ⟨room, .evaluate e f, m⟩) {name : String} {hops : Option Nat}
    (read : e.read? = some (name, hops)) :
    ∃ sites s, Traced ((start clock traceLevel).history steps accepts) m.frames f e sites s ∧
      hops = distance? s.scopes name ∧
      (∀ d, hops = some d →
        Finds ((start clock traceLevel).history steps accepts) m.frames f sites name d) ∧
      (∀ keyword method, e = .super keyword method hops → ∃ d, hops = some (d + 1) ∧
        Finds ((start clock traceLevel).history steps accepts) m.frames f sites "this" d) ∧
      ∀ fault m', (evaluate step.1.turns room e f).run m ≠ .error (.fault fault) m' := by
  obtain ⟨sane, located, -⟩ := Occurs.follows accepts split occurs
  change ExprAt _ m.frames f e at located
  cases e with
  | var token =>
    cases read
    obtain ⟨sites, s, traced, distance, finds⟩ := located.var_found
    refine ⟨sites, s, traced, distance, finds, fun _ _ other => (nomatch other), ?_⟩
    cases room with
    | zero => exact fun _ _ ran => nomatch ran
    | succ room => exact (sound_lookUp finds).ne_fault
  | this keyword =>
    cases read
    obtain ⟨sites, s, traced, distance, d, rfl, finds⟩ := located.this_found
    have found : ∀ d', some d = some d' → Finds ((start clock traceLevel).history steps accepts)
        m.frames f sites keyword.lexeme d' := by
      rintro d' ⟨⟩
      exact finds
    refine ⟨sites, s, traced, distance, found, fun _ _ other => (nomatch other), ?_⟩
    cases room with
    | zero => exact fun _ _ ran => nomatch ran
    | succ room => exact (sound_lookUp found).ne_fault
  | super keyword method =>
    cases read
    obtain ⟨sites, s, traced, distance, spelled, d, rfl, parent, receiver⟩ := located.super_found
    refine ⟨sites, s, traced, distance, ?_, fun _ _ _ => ⟨d, rfl, receiver⟩, ?_⟩
    · rintro d' ⟨⟩
      rw [spelled]
      exact parent
    · cases room with
      | zero => exact fun _ _ ran => nomatch ran
      | succ room => exact (sound_superMethod sane parent receiver).ne_fault
  | _ => cases read

theorem resolved_read_in_block :
    (match ((start (.ticking 0) 0).resolved "{ var a; print a; }").outcome with
      | .ok ⟨[.block [.varDecl _ none, .print (.var name (some 0))]]⟩ => name.lexeme == "a"
      | _ => false) = true := by
  decide +kernel

/-- The variable of a block, found where the block prints it, in the frame of that block. -/
theorem read_in_block_found :
    ∃ (accepts : (start (.ticking 0) 0).AcceptsAll [({}, "{ var a; print a; }")]) (room : Nat) (e : Expr)
      (f : FrameId) (m : Machine) (sites : List Site),
      (start (.ticking 0) 0).Occurs {} "{ var a; print a; }" ⟨room, .evaluate e f, m⟩ ∧
      Finds ((start (.ticking 0) 0).history _ accepts) m.frames f sites "a" 0 := by
  have accepts : (start (.ticking 0) 0).AcceptsAll [({}, "{ var a; print a; }")] := by
    refine ⟨⟨?_, ?_⟩, trivial⟩ <;> exact Array.size_eq_zero_iff.mp (by decide +kernel)
  have shape := resolved_read_in_block
  split at shape
  · next outcome =>
    obtain ⟨f, m, prints, -⟩ := occurs_in_block outcome
    have occurs := prints.starts .printed
    obtain ⟨sites, s, -, -, finds, -⟩ := reads_found accepts (List.nil_append _).symm occurs rfl
    rw [beq_iff_eq] at shape
    exact ⟨accepts, _, _, _, _, sites, occurs, shape ▸ finds 0 rfl⟩
  · cases shape

end Reads

/-! ### Assignments -/

section Assigns

variable {steps before later : List Step} {step : Step} {clock : Clock} {traceLevel : Nat}
variable {room : Nat} {f : FrameId} {m m₁ : Machine}

/-- When a resolved assignment in a session of accepted texts comes to store its value, there are
two cases.  If its name was ready where it was resolved, the frame at its distance is the one made
for the scope in which the resolver found the name, it holds the name, and the assignment succeeds.
If the name was not ready, which is so exactly in the initializer of its own declaration, the frame
is the innermost one, does not hold the name, and the assignment ends in a fault. -/
theorem assigns_found (accepts : (start clock traceLevel).AcceptsAll steps)
    (split : steps = before ++ step :: later) {name : Token} {value : Expr} {d : Nat}
    (occurs : ((start clock traceLevel).after before).Occurs step.1 step.2
      ⟨room + 1, .evaluate (.assign name value (some d)) f, m⟩) {v : Value}
    (ran : (evaluate step.1.turns room value f).run m = .ok v m₁) :
    ∃ sites s, Traced ((start clock traceLevel).history steps accepts) m₁.frames f
        (.assign name value (some d)) sites s ∧
      distance? s.scopes name.lexeme = some d ∧
      (s.isUnready name.lexeme = false →
        Finds ((start clock traceLevel).history steps accepts) m₁.frames f sites name.lexeme d ∧
        ∃ m₂, (evaluate step.1.turns (room + 1) (.assign name value (some d)) f).run m
          = .ok v m₂) ∧
      (s.isUnready name.lexeme = true →
        d = 0 ∧ m₁.frames.local? f name.lexeme = none ∧
        (evaluate step.1.turns (room + 1) (.assign name value (some d)) f).run m
          = .error (.fault (.nameMissing name.lexeme 0)) m₁) := by
  obtain ⟨sane, located, -⟩ := Occurs.follows accepts split occurs
  have here := ExprAt.calm located sane.there (changes_evaluate ran)
  obtain ⟨sites, s, traced, distance, found⟩ := here.assign_found
  obtain ⟨ready, unready⟩ := found d rfl
  refine ⟨sites, s, traced, distance.symm, fun isReady => ⟨ready isReady, ?_⟩, fun isUnready => ?_⟩
  · obtain ⟨g, m₂, -, stored, -⟩ := (ready isReady).run_store (v := v)
    refine ⟨m₂, ?_⟩
    rw [run_assign ran, EStateM.run_bind, stored]
    rfl
  · obtain ⟨rfl, missing⟩ := unready isUnready
    refine ⟨rfl, missing, ?_⟩
    rw [run_assign ran, EStateM.run_bind, run_store_of_missing rfl missing]
    rfl

theorem resolved_assign_in_block :
    (match ((start (.ticking 0) 0).resolved "{ var a; a = true; }").outcome with
      | .ok ⟨[.block [.varDecl declared none,
          .expr (.assign name (.literal (.bool true)) (some 0))]]⟩ =>
        declared.lexeme == "a" && name.lexeme == "a"
      | _ => false) = true := by
  decide +kernel

/-- An assignment to the variable of a block, which is ready where it occurs: its frame is found at
the distance, and holds the value afterwards instead of the one it was declared with. -/
theorem assign_in_block_found :
    ∃ (accepts : (start (.ticking 0) 0).AcceptsAll [({}, "{ var a; a = true; }")]) (room : Nat)
      (name : Token) (f : FrameId) (m m' : Machine) (sites : List Site) (s : State),
      (start (.ticking 0) 0).Occurs {} "{ var a; a = true; }"
        ⟨room + 1, .evaluate (.assign name (.literal (.bool true)) (some 0)) f, m⟩ ∧
      Traced ((start (.ticking 0) 0).history _ accepts) m.frames f
        (.assign name (.literal (.bool true)) (some 0)) sites s ∧
      s.isUnready "a" = false ∧
      Finds ((start (.ticking 0) 0).history _ accepts) m.frames f sites "a" 0 ∧
      m.frames.local? f "a" = some .nil ∧
      (evaluate ({} : Limits).turns (room + 1)
        (.assign name (.literal (.bool true)) (some 0)) f).run m = .ok (.bool true) m' ∧
      m'.frames.local? f "a" = some (.bool true) := by
  have accepts : (start (.ticking 0) 0).AcceptsAll [({}, "{ var a; a = true; }")] := by
    refine ⟨⟨?_, ?_⟩, trivial⟩ <;> exact Array.size_eq_zero_iff.mp (by decide +kernel)
  have shape := resolved_assign_in_block
  split at shape
  · next declared name outcome =>
    rw [Bool.and_eq_true, beq_iff_eq, beq_iff_eq] at shape
    obtain ⟨declares, named⟩ := shape
    obtain ⟨f, m, assigns, bound⟩ := occurs_in_block outcome
    rw [declares] at bound
    have occurs := assigns.starts .expression
    have valued (n : Machine) : (evaluate ({} : Limits).turns 9976 (.literal (.bool true)) f).run n
        = .ok (.bool true) n := rfl
    obtain ⟨sites, s, traced, -, ready, unready⟩ :=
      assigns_found accepts (List.nil_append _).symm occurs (valued _)
    cases late : s.isUnready name.lexeme with
    | true =>
      -- then the name would not be bound yet
      obtain ⟨-, missing, -⟩ := unready late
      rw [named] at missing
      cases bound.symm.trans missing
    | false =>
      obtain ⟨finds, -⟩ := ready late
      obtain ⟨g, m', reached, stored, holds⟩ := finds.run_store (v := .bool true)
      obtain rfl : f = g := Option.some.inj reached
      rw [named] at late finds holds
      refine ⟨accepts, _, _, _, _, m', sites, s, occurs, traced, late, finds, bound, ?_, holds⟩
      rw [run_assign (valued _), EStateM.run_bind, stored]
      rfl
  · cases shape

/-- An assignment in the initializer of its own variable is accepted, and misses. -/
theorem assign_in_own_initializer_misses :
    (start (.ticking 0) 0).AcceptsAll [({}, "{ var a = (a = 1); print a; }")] ∧
      ((start (.ticking 0) 0).runText {} "{ var a = (a = 1); print a; }").2
        = .fault (.nameMissing "a" 0) := by
  refine ⟨⟨⟨?_, ?_⟩, trivial⟩, ?_⟩
  · exact Array.size_eq_zero_iff.mp (by decide +kernel)
  · exact Array.size_eq_zero_iff.mp (by decide +kernel)
  · decide +kernel

end Assigns

end Session
end Arbor
