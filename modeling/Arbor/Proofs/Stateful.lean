/-!
# Computations that keep state and may stop

The parser, the resolver and the evaluator are computations of one kind: they work on a state and
may stop early, keeping what they did.  This module has the two ways in which proofs open them.

* **Inversion**: `run_bind_ok` and its companions take a computation that returned apart into the
  parts that returned.
* **Judgement**: `Ensures x s returns stops` says what holds when `x`, started in `s`, returns and
  when it stops.  It composes along `bind`, so a proof about a program follows the program.
-/

namespace Arbor
namespace Stateful

universe u

variable {ε σ α β : Type u}

/-! ### Inversion -/

/-- A sequence returned if its first part did and the second one did from there.  With this lemma a
run is taken apart along the computation. -/
theorem run_bind_ok {x : EStateM ε σ α} {k : α → EStateM ε σ β} {s s' : σ} {b : β} :
    (x >>= k).run s = .ok b s' ↔ ∃ a s₁, x.run s = .ok a s₁ ∧ (k a).run s₁ = .ok b s' := by
  rw [EStateM.run_bind]
  cases h : x.run s with
  | ok a s₁ =>
    constructor
    · intro rest
      exact ⟨a, s₁, rfl, rest⟩
    · rintro ⟨a, s₁, ran, rest⟩
      cases ran
      exact rest
  | error e s₁ => simp

/-- A result that was changed afterwards comes from a run that ended in the same state. -/
theorem run_map_ok {x : EStateM ε σ α} {g : α → β} {s s' : σ} {b : β} :
    (g <$> x).run s = .ok b s' ↔ ∃ a, x.run s = .ok a s' ∧ g a = b := by
  rw [map_eq_pure_bind, run_bind_ok]
  constructor
  · rintro ⟨a, s₁, ran, rest⟩
    cases rest
    exact ⟨a, ran, rfl⟩
  · rintro ⟨a, ran, rfl⟩
    exact ⟨a, s', ran, rfl⟩

/-- Where there is no result, there is nothing to change. -/
theorem run_map_error {x : EStateM ε σ α} (g : α → β) {s s' : σ} {e : ε}
    (ran : x.run s = .error e s') : (g <$> x).run s = .error e s' := by
  rw [map_eq_pure_bind, EStateM.run_bind, ran]

/-- A computation that only gives a result leaves its state. -/
theorem run_pure_ok {a b : α} {s s' : σ} :
    (pure a : EStateM ε σ α).run s = .ok b s' ↔ a = b ∧ s = s' := by
  simp

/-- A change of the state returns, with the state changed. -/
theorem run_modify_ok {f : σ → σ} {u : PUnit} {s s' : σ} :
    (modify f : EStateM ε σ PUnit).run s = .ok u s' ↔ s' = f s := by
  constructor
  · intro h
    cases h
    rfl
  · rintro rfl
    rfl

/-- A computation that reads and changes the state at once is the function it is made of. -/
theorem run_modifyGet_ok {f : σ → α × σ} {a : α} {s s' : σ} :
    (modifyGet f : EStateM ε σ α).run s = .ok a s' ↔ f s = (a, s') := by
  constructor
  · intro h
    cases h
    rfl
  · intro h
    change EStateM.Result.ok (f s).1 (f s).2 = _
    rw [h]

/-- Looking at the state returns it and leaves it. -/
theorem run_get_ok {a s s' : σ} : (get : EStateM ε σ σ).run s = .ok a s' ↔ s = a ∧ s = s' := by
  constructor
  · intro h
    cases h
    exact ⟨rfl, rfl⟩
  · rintro ⟨rfl, rfl⟩
    rfl

/-- A computation that stops does not return. -/
theorem run_throw_ok {e : ε} {a : α} {s s' : σ} :
    ¬ (throw e : EStateM ε σ α).run s = .ok a s' := by
  intro h
  cases h

/-! ### Judgement -/

/-- What holds of the result of `x`, started in `s`: `returns` if it returns, `stops` if it stops
early. -/
def Ensures (x : EStateM ε σ α) (s : σ) (returns : α → σ → Prop) (stops : ε → σ → Prop) : Prop :=
  match x.run s with
  | .ok a s' => returns a s'
  | .error e s' => stops e s'

namespace Ensures

variable {x : EStateM ε σ α} {s s' : σ} {returns returns' : α → σ → Prop}
variable {stops stops' : ε → σ → Prop}

/-- What is ensured of a computation holds if it has returned. -/
theorem of_ok (h : Ensures x s returns stops) {a : α} (ran : x.run s = .ok a s') :
    returns a s' := by
  unfold Ensures at h
  rw [ran] at h
  exact h

/-- What is ensured of it holds if it has stopped. -/
theorem of_error (h : Ensures x s returns stops) {e : ε} (ran : x.run s = .error e s') :
    stops e s' := by
  unfold Ensures at h
  rw [ran] at h
  exact h

/-- Whatever holds of all runs is ensured, where the run is known and the computation is not. -/
theorem intro (ok : ∀ a s', x.run s = .ok a s' → returns a s')
    (error : ∀ e s', x.run s = .error e s' → stops e s') : Ensures x s returns stops := by
  unfold Ensures
  cases h : x.run s with
  | ok a s' => exact ok a s' h
  | error e s' => exact error e s' h

/-- Less may be ensured, of both ways to end. -/
theorem mono (h : Ensures x s returns stops) (ok : ∀ a s', returns a s' → returns' a s')
    (error : ∀ e s', stops e s' → stops' e s') : Ensures x s returns' stops' :=
  intro (fun a s' ran => ok a s' (h.of_ok ran)) fun e s' ran => error e s' (h.of_error ran)

theorem pure {a : α} (h : returns a s) : Ensures (Pure.pure a) s returns stops := h

/-- A change of the state ensures what holds of the changed state. -/
theorem modify {f : σ → σ} {returns : PUnit → σ → Prop} (h : returns ⟨⟩ (f s)) :
    Ensures (modify f : EStateM ε σ PUnit) s returns stops := h

theorem modifyGet {f : σ → α × σ} (h : returns (f s).1 (f s).2) :
    Ensures (MonadState.modifyGet f : EStateM ε σ α) s returns stops := h

/-- The second part is told how the first one ran, not only what it ensures.  If the first one
stops, it does so as the whole does. -/
theorem bind {k : α → EStateM ε σ β} {after : β → σ → Prop} (first : Ensures x s returns stops)
    (second : ∀ a s', x.run s = .ok a s' → returns a s' → Ensures (k a) s' after stops) :
    Ensures (x >>= k) s after stops := by
  unfold Ensures
  rw [EStateM.run_bind]
  cases ran : x.run s with
  | ok a s' => exact second a s' ran (first.of_ok ran)
  | error e s' => exact first.of_error ran

/-- A result that is changed afterwards is asked for what is wanted of it then. -/
theorem map {g : α → β} {after : β → σ → Prop}
    (h : Ensures x s (fun a s' => after (g a) s') stops) : Ensures (g <$> x) s after stops := by
  rw [map_eq_pure_bind]
  exact bind h fun a s' _ returned => pure returned

/-- A handler takes over in the state in which the body stopped.  It is told how the body ran, and
what the body ensures when it stops. -/
theorem tryCatch {handle : ε → EStateM ε σ α} (body : Ensures x s returns stops')
    (handler : ∀ e s', x.run s = .error e s' → stops' e s' →
      Ensures (handle e) s' returns stops) :
    Ensures (tryCatchThe ε x handle) s returns stops := by
  unfold Ensures
  change match EStateM.tryCatch x handle s with
    | .ok a s' => returns a s'
    | .error e s' => stops e s'
  unfold EStateM.tryCatch
  cases ran : x s with
  | ok a s' => exact body.of_ok ran
  | error e s' => exact handler e s' ran (body.of_error ran)

end Ensures

end Stateful
end Arbor
