import Arbor.Proofs.Stateful

/-!
# Two runs side by side

Some properties of a computation compare two of its runs: from states that differ in what it does
not look at, or of two programs that differ in what does not matter.  `Parallel x s y t returns
stops` says that `x`, started in `s`, and `y`, started in `t`, end in the same way, and what then holds
of the two results.  Like `Ensures` it composes along `bind`, and so a proof about two runs follows
the program once.
-/

namespace Arbor
namespace Stateful

universe u

variable {ε σ α β : Type u}

/-- Both computations return, and `returns` holds of the results, or both stop early, and `stops`
does. -/
def Parallel (x : EStateM ε σ α) (s : σ) (y : EStateM ε σ α) (t : σ)
    (returns : α → σ → α → σ → Prop) (stops : ε → σ → ε → σ → Prop) : Prop :=
  match x.run s, y.run t with
  | .ok a s', .ok b t' => returns a s' b t'
  | .error e s', .error d t' => stops e s' d t'
  | _, _ => False

namespace Parallel

variable {x y : EStateM ε σ α} {s s' t t' : σ} {returns returns' : α → σ → α → σ → Prop}
variable {stops stops' : ε → σ → ε → σ → Prop}

/-- If the first run returned, so did the second, and the results are related. -/
theorem of_ok (h : Parallel x s y t returns stops) {a : α} (ran : x.run s = .ok a s') :
    ∃ b t', y.run t = .ok b t' ∧ returns a s' b t' := by
  unfold Parallel at h
  rw [ran] at h
  cases other : y.run t with
  | ok b t' =>
    rw [other] at h
    exact ⟨b, t', rfl, h⟩
  | error d t' =>
    rw [other] at h
    exact h.elim

/-- If the first run stopped, so did the second, and the reasons are related. -/
theorem of_error (h : Parallel x s y t returns stops) {e : ε} (ran : x.run s = .error e s') :
    ∃ d t', y.run t = .error d t' ∧ stops e s' d t' := by
  unfold Parallel at h
  rw [ran] at h
  cases other : y.run t with
  | ok b t' =>
    rw [other] at h
    exact h.elim
  | error d t' =>
    rw [other] at h
    exact ⟨d, t', rfl, h⟩

/-- Two runs that are known to return are side by side. -/
theorem intro_ok {a b : α} (first : x.run s = .ok a s') (second : y.run t = .ok b t')
    (holds : returns a s' b t') : Parallel x s y t returns stops := by
  unfold Parallel
  rw [first, second]
  exact holds

/-- So are two that are known to stop. -/
theorem intro_error {e d : ε} (first : x.run s = .error e s') (second : y.run t = .error d t')
    (holds : stops e s' d t') : Parallel x s y t returns stops := by
  unfold Parallel
  rw [first, second]
  exact holds

/-- Less may be claimed of the results, and of the reasons. -/
theorem mono (h : Parallel x s y t returns stops)
    (ok : ∀ a s' b t', returns a s' b t' → returns' a s' b t')
    (error : ∀ e s' d t', stops e s' d t' → stops' e s' d t') :
    Parallel x s y t returns' stops' := by
  cases first : x.run s with
  | ok a s' =>
    obtain ⟨b, t', second, holds⟩ := h.of_ok first
    exact intro_ok first second (ok _ _ _ _ holds)
  | error e s' =>
    obtain ⟨d, t', second, holds⟩ := h.of_error first
    exact intro_error first second (error _ _ _ _ holds)

/-- What is known of the results includes how the first computation ran. -/
theorem and_run (h : Parallel x s y t returns stops) :
    Parallel x s y t (fun a s' b t' => x.run s = .ok a s' ∧ returns a s' b t') stops := by
  cases first : x.run s with
  | ok a s' =>
    obtain ⟨b, t', second, holds⟩ := h.of_ok first
    exact intro_ok first second ⟨rfl, holds⟩
  | error e s' =>
    obtain ⟨d, t', second, holds⟩ := h.of_error first
    exact intro_error first second holds

theorem pure {a b : α} (h : returns a s b t) :
    Parallel (Pure.pure a) s (Pure.pure b) t returns stops := h

theorem throw {e d : ε} (h : stops e s d t) :
    Parallel (MonadExcept.throw e) s (MonadExcept.throw d) t returns stops := h

/-- Changes of the two states relate what they make of them. -/
theorem modify {f g : σ → σ} {returns : PUnit → σ → PUnit → σ → Prop}
    (h : returns ⟨⟩ (f s) ⟨⟩ (g t)) :
    Parallel (modify f : EStateM ε σ PUnit) s (modify g) t returns stops := h

theorem modifyGet {f g : σ → α × σ} (h : returns (f s).1 (f s).2 (g t).1 (g t).2) :
    Parallel (MonadState.modifyGet f : EStateM ε σ α) s (MonadState.modifyGet g) t
      returns stops := h

/-- Computations may look at the states they begin in. -/
theorem look {k l : σ → EStateM ε σ α} (h : Parallel (k s) s (l t) t returns stops) :
    Parallel (get >>= k) s (get >>= l) t returns stops := h

/-- Sequences are side by side if their first parts are, and their second parts wherever the first
ones may have led.  The two programs need not be the same; they only have to go the same way. -/
theorem bind {k l : α → EStateM ε σ β} {after : β → σ → β → σ → Prop}
    (first : Parallel x s y t returns stops)
    (second : ∀ a s' b t', returns a s' b t' → Parallel (k a) s' (l b) t' after stops) :
    Parallel (x >>= k) s (y >>= l) t after stops := by
  unfold Parallel
  rw [EStateM.run_bind, EStateM.run_bind]
  cases ran : x.run s with
  | ok a s' =>
    obtain ⟨b, t', other, holds⟩ := first.of_ok ran
    rw [other]
    exact second a s' b t' holds
  | error e s' =>
    obtain ⟨d, t', other, holds⟩ := first.of_error ran
    rw [other]
    exact holds

/-- Handlers take over side by side, where the bodies stopped.  If the bodies did not stop, then
neither handler has a say. -/
theorem tryCatch {handle catch' : ε → EStateM ε σ α} (body : Parallel x s y t returns stops')
    (handlers : ∀ e s' d t', stops' e s' d t' →
      Parallel (handle e) s' (catch' d) t' returns stops) :
    Parallel (tryCatchThe ε x handle) s (tryCatchThe ε y catch') t returns stops := by
  unfold Parallel
  change match EStateM.tryCatch x handle s, EStateM.tryCatch y catch' t with
    | .ok a s', .ok b t' => returns a s' b t'
    | .error e s', .error d t' => stops e s' d t'
    | _, _ => False
  unfold EStateM.tryCatch
  cases ran : x s with
  | ok a s' =>
    obtain ⟨b, t', other, holds⟩ := body.of_ok ran
    change y t = _ at other
    rw [other]
    exact holds
  | error e s' =>
    obtain ⟨d, t', other, holds⟩ := body.of_error ran
    change y t = _ at other
    rw [other]
    exact handlers e s' d t' holds

end Parallel

end Stateful
end Arbor
