import TypeInference.Fault

/-!
# `Proofs.Run` — runs that keep to a relation

Unification and inference are computations that keep their state when they stop. What is said about them has
one shape: the state moves along a relation `R` in any case, a run that ends has a result that satisfies `Q`,
and a run that stops does so for a reason that satisfies `E`. `Within` is that shape. Its lemmas take a
computation apart at its steps, so that no later proof opens the monad.

Two computations can also be run side by side, from related states: `Mirrors` says that the second ends
whenever the first does, in a related state and with a related result.
-/

namespace TypeInference

variable {ε σ α β : Type} {R : σ → σ → Prop} {E : ε → Prop}

/-- Run from `s`, the computation moves the state along `R`, and gives a result in `Q` or stops for a reason in `E`.
    The move is promised in both cases, since unification and inference keep what they have done when they stop. -/
def Within (R : σ → σ → Prop) (E : ε → Prop) (m : EStateM ε σ α) (s : σ) (Q : α → σ → Prop) : Prop :=
  match m s with
  | .ok a s' => R s s' ∧ Q a s'
  | .error e s' => R s s' ∧ E e

namespace Within

variable {m : EStateM ε σ α} {next : α → EStateM ε σ β} {s s' : σ} {Q Q' : α → σ → Prop}

/-! ## Runs whose result is known -/

theorem of_ok {a : α} (hm : m s = .ok a s') (hR : R s s') (hQ : Q a s') : Within R E m s Q := by
  unfold Within; rw [hm]; exact ⟨hR, hQ⟩

theorem of_error {e : ε} (hm : m s = .error e s') (hR : R s s') (hE : E e) : Within R E m s Q := by
  unfold Within; rw [hm]; exact ⟨hR, hE⟩

/-- What a run that ends has done: the state has moved along the relation, and the result is as promised. -/
theorem ok (h : Within R E m s Q) {a : α} (hm : m s = .ok a s') : R s s' ∧ Q a s' := by
  unfold Within at h; rwa [hm] at h

/-- What a run that stops has done: the state has moved along the relation all the same, and the reason is one of
    those allowed. -/
theorem error (h : Within R E m s Q) {e : ε} (hm : m s = .error e s') : R s s' ∧ E e := by
  unfold Within at h; rwa [hm] at h

theorem pure {a : α} (hR : R s s) (hQ : Q a s) : Within R E (pure a : EStateM ε σ α) s Q := of_ok rfl hR hQ

theorem throw {e : ε} (hR : R s s) (hE : E e) : Within R E (throw e : EStateM ε σ α) s Q := of_error rfl hR hE

/-! ## Saying less -/

/-- Results and reasons may be weakened, and in weakening what is known of a result it may be used how the state has
    moved up to it. -/
theorem imp {E' : ε → Prop} (h : Within R E' m s Q') (hE : ∀ e, E' e → E e)
    (hQ : ∀ a s', R s s' → Q' a s' → Q a s') : Within R E m s Q := by
  unfold Within at h ⊢
  split
  · next hm => rw [hm] at h; exact ⟨h.1, hQ _ _ h.1 h.2⟩
  · next hm => rw [hm] at h; exact ⟨h.1, hE _ h.2⟩

theorem mono (h : Within R E m s Q') (hQ : ∀ a s', R s s' → Q' a s' → Q a s') : Within R E m s Q :=
  h.imp (fun _ he => he) hQ

/-- A relation that says less may be kept to; a lemma about a small step is so used where only part of what it says
    matters. -/
theorem relax {R' : σ → σ → Prop} (h : Within R' E m s Q) (hR : ∀ s', R' s s' → R s s') :
    Within R E m s Q := by
  unfold Within at h ⊢
  split
  · next hm => rw [hm] at h; exact ⟨hR _ h.1, h.2⟩
  · next hm => rw [hm] at h; exact ⟨hR _ h.1, h.2⟩

/-! ## Steps in sequence -/

/-- **One step, then the rest.** The relation has to be transitive, and the rest is run from the state in which the
    step has ended, with what is known of that state and of the result. What holds of a computation is put together
    by this lemma from what holds of its steps. -/
theorem bind {Q : β → σ → Prop} (hR : ∀ {s₁ s₂ s₃ : σ}, R s₁ s₂ → R s₂ s₃ → R s₁ s₃)
    (h : Within R E m s Q') (hnext : ∀ a s', R s s' → Q' a s' → Within R E (next a) s' Q) :
    Within R E (m >>= next) s Q := by
  cases hm : m s with
  | error e s₁ => exact of_error (run_bind_of_error hm) (h.error hm).1 (h.error hm).2
  | ok a s₁ =>
    obtain ⟨hfirst, hQ'⟩ := h.ok hm
    have hrest := hnext a s₁ hfirst hQ'
    cases hrun : next a s₁ with
    | error e s₂ =>
      exact of_error ((run_bind_of_ok hm).trans hrun) (hR hfirst (hrest.error hrun).1) (hrest.error hrun).2
    | ok b s₂ => exact of_ok ((run_bind_of_ok hm).trans hrun) (hR hfirst (hrest.ok hrun).1) (hrest.ok hrun).2

/-- A step that leaves the state alone, then the rest. Questions put to the store are such steps, so for them no
    transitivity is needed. -/
theorem bind_of_ok {a : α} {Q : β → σ → Prop} (hm : m s = .ok a s) (h : Within R E (next a) s Q) :
    Within R E (m >>= next) s Q := by
  unfold Within
  rw [run_bind_of_ok hm]
  exact h

end Within

/-! ## Taking a run apart

For a run whose end is given, the step and the rest are runs of their own. What the first of them has done is then
known before the second is looked at. -/

/-- A run of one step and the rest that ends is a run of the step that ends, and one of the rest. This is how a run
    that is known to have ended is taken apart. -/
theorem exists_of_run_bind {m : EStateM ε σ α} {next : α → EStateM ε σ β} {s s'' : σ} {b : β}
    (h : (m >>= next) s = .ok b s'') : ∃ a s', m s = .ok a s' ∧ next a s' = .ok b s'' := by
  replace h : EStateM.bind m next s = .ok b s'' := h
  cases hm : m s with
  | error e s' => rw [EStateM.bind, hm] at h; cases h
  | ok a s' =>
    rw [EStateM.bind, hm] at h
    exact ⟨a, s', rfl, h⟩

/-- A run of one step and the rest that stops does so in the step, or in the rest once the step has ended. -/
theorem exists_of_run_bind_error {m : EStateM ε σ α} {next : α → EStateM ε σ β} {s s'' : σ} {e : ε}
    (h : (m >>= next) s = .error e s'') :
    m s = .error e s'' ∨ ∃ a s', m s = .ok a s' ∧ next a s' = .error e s'' := by
  replace h : EStateM.bind m next s = .error e s'' := h
  cases hm : m s with
  | error e' s' =>
    rw [EStateM.bind, hm] at h
    cases h
    exact .inl rfl
  | ok a s' =>
    rw [EStateM.bind, hm] at h
    exact .inr ⟨a, s', rfl, h⟩

/-! ## Side by side -/

/-- Whenever `m` ends, `m'` ends from a related state, in a related state and with a related result. Nothing is said
    of a run of `m` that stops, so the relation is one-sided: it is a simulation of the runs that end. -/
def Mirrors {α' : Type} (R : σ → σ → Prop) (m : EStateM ε σ α) (m' : EStateM ε σ α') (Q : α → α' → Prop) :
    Prop :=
  ∀ s t, R s t → ∀ a s', m s = .ok a s' → ∃ a' t', m' t = .ok a' t' ∧ R s' t' ∧ Q a a'

namespace Mirrors

variable {α' β' : Type} {m : EStateM ε σ α} {m' : EStateM ε σ α'} {Q Q' : α → α' → Prop}

theorem pure {a : α} {a' : α'} (hQ : Q a a') :
    Mirrors R (pure a : EStateM ε σ α) (pure a' : EStateM ε σ α') Q := by
  rintro s t h b s' ⟨⟩
  exact ⟨a', t, rfl, h, hQ⟩

/-- A computation that never ends is mirrored by any other, so the cases in which the first run refuses need no
    thought. -/
theorem throw {e : ε} : Mirrors R (throw e : EStateM ε σ α) m' Q := by
  rintro s t - b s' ⟨⟩

theorem mono (h : Mirrors R m m' Q') (hQ : ∀ a a', Q' a a' → Q a a') : Mirrors R m m' Q := by
  intro s t hst a s' hm
  obtain ⟨a', t', hm', hst', hafter⟩ := h s t hst a s' hm
  exact ⟨a', t', hm', hst', hQ a a' hafter⟩

/-- **One step, then the rest, side by side.** The rests need to mirror each other only for results that the steps
    can have related. -/
theorem bind {P : β → β' → Prop} {next : α → EStateM ε σ β} {next' : α' → EStateM ε σ β'}
    (h : Mirrors R m m' Q) (hnext : ∀ a a', Q a a' → Mirrors R (next a) (next' a') P) :
    Mirrors R (m >>= next) (m' >>= next') P := by
  intro s t hst b s'' hrun
  obtain ⟨a, s', hm, hrest⟩ := exists_of_run_bind hrun
  obtain ⟨a', t', hm', hst', hQ⟩ := h s t hst a s' hm
  rw [run_bind_of_ok hm']
  exact hnext a a' hQ s' t' hst' b s'' hrest

end Mirrors

end TypeInference
