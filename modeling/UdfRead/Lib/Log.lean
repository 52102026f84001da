import UdfRead.Lib.Comp

/-!
# UdfRead.Lib.Log

Computations whose environment keeps a log. `Adds x R` bounds what a run of `x` adds to the log,
`AddsFirst x b` says what it adds first. `Forgets x y`: without the log it is the computation `y`.
-/

namespace CModel.Proc

variable {σ α β γ : Type}

/-- Every entry that a run adds to the log has `R`. -/
def Adds (x : Proc (σ × List γ) α) (R : γ → Prop) : Prop :=
  ∀ s log a s' log', x (s, log) = .ok (a, (s', log')) → ∃ new, log' = log ++ new ∧ ∀ b ∈ new, R b

/-- From every state the computation returns, and the first entry it adds is `b`. -/
def AddsFirst (x : Proc (σ × List γ) α) (b : γ) : Prop :=
  ∀ s log, ∃ a s' new, x (s, log) = .ok (a, (s', log ++ b :: new))

/-- What a run returns, and the state it leaves, is what `y` returns and leaves. -/
def Forgets (x : Proc (σ × List γ) α) (y : Proc σ α) : Prop :=
  ∀ s log a s' log', x (s, log) = .ok (a, (s', log')) → y s = .ok (a, s')

variable {x : Proc (σ × List γ) α} {f : α → Proc (σ × List γ) β} {R R' : γ → Prop} {b : γ}
  {y : Proc σ α} {g : α → Proc σ β}

theorem adds_pure (a : α) : Adds (pure a : Proc (σ × List γ) α) R := by
  intro s log _ s' log' h
  cases h
  exact ⟨[], by simp⟩

theorem adds_ofRes (r : Res α) : Adds (ofRes r : Proc (σ × List γ) α) R := by
  intro s log a s' log' h
  obtain ⟨-, he⟩ := ofRes_eq_ok.mp h
  cases he
  exact ⟨[], by simp⟩

theorem Adds.bind (hx : Adds x R) (hf : ∀ a, Adds (f a) R) : Adds (x >>= f) R := by
  intro s log c s' log' h
  obtain ⟨a, ⟨t, mid⟩, ha, hb⟩ := bind_eq_ok.mp h
  obtain ⟨new, rfl, hnew⟩ := hx _ _ _ _ _ ha
  obtain ⟨new', rfl, hnew'⟩ := hf a _ _ _ _ _ hb
  refine ⟨new ++ new', List.append_assoc .., fun b hb => ?_⟩
  rcases List.mem_append.mp hb with hb | hb
  · exact hnew b hb
  · exact hnew' b hb

/-- The first entry of a computation that returns is that of its first part. -/
theorem AddsFirst.bind {Q : β → Prop} (hx : AddsFirst x b) (hf : ∀ a, Adds (f a) R)
    (hret : Returns (x >>= f) Q) : AddsFirst (x >>= f) b := by
  intro s log
  obtain ⟨c, ⟨s'', log''⟩, hc, -⟩ := hret (s, log)
  obtain ⟨a, s', new, ha⟩ := hx s log
  refine ⟨c, s'', ?_⟩
  rw [hc]
  rw [bind_of_ok ha] at hc
  obtain ⟨new', rfl, -⟩ := hf a _ _ _ _ _ hc
  exact ⟨new ++ new', by simp⟩

theorem AddsFirst.unique (s : σ) {b' : γ} (h : AddsFirst x b) (h' : AddsFirst x b') : b = b' := by
  obtain ⟨_, _, new, hrun⟩ := h s []
  obtain ⟨_, _, new', hrun'⟩ := h' s []
  rw [hrun] at hrun'
  cases hrun'
  rfl

/-! ## Without the log -/

theorem forgets_pure (a : α) : Forgets (pure a : Proc (σ × List γ) α) (pure a) := by
  intro s log a' s' log' h
  cases h
  rfl

theorem forgets_ofRes (r : Res α) : Forgets (ofRes r : Proc (σ × List γ) α) (ofRes r) := by
  intro s log a s' log' h
  obtain ⟨rfl, he⟩ := ofRes_eq_ok.mp h
  cases he
  rfl

theorem Forgets.bind (hx : Forgets x y) (hf : ∀ a, Forgets (f a) (g a)) :
    Forgets (x >>= f) (y >>= g) := by
  intro s log c s' log' h
  obtain ⟨a, ⟨t, mid⟩, ha, hb⟩ := bind_eq_ok.mp h
  rw [bind_of_ok (hx _ _ _ _ _ ha)]
  exact hf a _ _ _ _ _ hb

end CModel.Proc
