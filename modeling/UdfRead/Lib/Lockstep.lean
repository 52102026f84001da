import UdfRead.Lib.Comp

/-!
# UdfRead.Lib.Lockstep

Two computations that run in lockstep: they take the environment through the same states, both trap
in the same way, or both return, with related results. The rules follow the monad.
-/

namespace CModel

namespace Proc

variable {σ α β γ δ : Type}

def Lockstep (R : α → β → Prop) (x : Proc σ α) (y : Proc σ β) : Prop :=
  ∀ s, (∃ t, x s = .error t ∧ y s = .error t) ∨
    ∃ a b s', x s = .ok (a, s') ∧ y s = .ok (b, s') ∧ R a b

variable {R : α → β → Prop} {Q : γ → δ → Prop} {x : Proc σ α} {y : Proc σ β}

theorem lockstep_pure {a : α} {b : β} (h : R a b) :
    Lockstep R (pure a : Proc σ α) (pure b) := by
  intro s
  exact .inr ⟨a, b, s, rfl, rfl, h⟩

theorem Lockstep.bind {f : α → Proc σ γ} {g : β → Proc σ δ} (h : Lockstep R x y)
    (hf : ∀ a b, R a b → Lockstep Q (f a) (g b)) : Lockstep Q (x >>= f) (y >>= g) := by
  intro s
  rcases h s with ⟨t, hx, hy⟩ | ⟨a, b, s', hx, hy, hr⟩
  · exact .inl ⟨t, bind_of_error hx, bind_of_error hy⟩
  · rw [bind_of_ok hx, bind_of_ok hy]
    exact hf a b hr s'

/-- Two computations that start with the same one, whose results have `P`. -/
theorem lockstep_bind_of {P : α → Prop} (hx : ∀ s a s', x s = .ok (a, s') → P a)
    {f : α → Proc σ γ} {g : α → Proc σ δ} (hf : ∀ a, P a → Lockstep Q (f a) (g a)) :
    Lockstep Q (x >>= f) (x >>= g) := by
  intro s
  cases h : x s with
  | error t => exact .inl ⟨t, bind_of_error h, bind_of_error h⟩
  | ok r =>
    rw [bind_of_ok h, bind_of_ok h]
    exact hf r.1 (hx s r.1 r.2 h) r.2

theorem lockstep_bind (x : Proc σ α) {f : α → Proc σ γ} {g : α → Proc σ δ}
    (hf : ∀ a, Lockstep Q (f a) (g a)) : Lockstep Q (x >>= f) (x >>= g) :=
  lockstep_bind_of (P := fun _ => True) (fun _ _ _ _ => trivial) fun a _ => hf a

/-- What the second computation returns where the first one does. -/
theorem Lockstep.right {s s' : σ} {a : α} (h : Lockstep R x y) (hx : x s = .ok (a, s')) :
    ∃ b, y s = .ok (b, s') ∧ R a b := by
  rcases h s with ⟨t, ht, _⟩ | ⟨a', b, s'', ha, hb, hr⟩
  · rw [hx] at ht
    cases ht
  · rw [hx] at ha
    cases ha
    exact ⟨b, hb, hr⟩

end Proc

end CModel
