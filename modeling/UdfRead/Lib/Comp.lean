import Mathlib

/-!
# UdfRead.Lib.Comp

Computations of embedded C code. `Res` is a pure computation that may trap: an access outside of
an object, a signed overflow, or (for embeddings of unbounded loops) the end of the fuel. `Proc σ`
also threads the state `σ` of the environment the code calls into, so two calls with equal
arguments may behave differently.

A C function that returns an error code is not a trap: its embedding returns the code.
-/

namespace CModel

/-- Why a run has no defined result. -/
inductive Trap where
  /-- an object is read or written outside of its bounds -/
  | outOfBounds
  /-- a signed addition or subtraction leaves the range of its type -/
  | signedOverflow
  /-- the fuel of a loop embedding ran out before the loop ended -/
  | outOfFuel
  deriving DecidableEq, Repr

abbrev Res (α : Type) := Except Trap α

abbrev Proc (σ α : Type) := StateT σ (Except Trap) α

namespace Res

variable {α β : Type}

@[simp] theorem pure_def (a : α) : (pure a : Res α) = .ok a := rfl

@[simp] theorem ok_bind (a : α) (f : α → Res β) : (Except.ok a >>= f) = f a := rfl

@[simp] theorem error_bind (t : Trap) (f : α → Res β) :
    ((Except.error t : Res α) >>= f) = .error t := rfl

theorem bind_eq_ok {x : Res α} {f : α → Res β} {b : β} :
    (x >>= f) = .ok b ↔ ∃ a, x = .ok a ∧ f a = .ok b := by
  cases x with
  | error t => simp
  | ok a => simp

/-- The computation ends with a result that has `Q`, or it traps and `E` holds. -/
def Post (x : Res α) (E : Prop) (Q : α → Prop) : Prop :=
  match x with
  | .ok a => Q a
  | .error _ => E

@[simp] theorem post_ok {a : α} {E : Prop} {Q : α → Prop} : Post (.ok a) E Q ↔ Q a := Iff.rfl

@[simp] theorem post_error {t : Trap} {E : Prop} {Q : α → Prop} : Post (.error t) E Q ↔ E := Iff.rfl

/-- The rule of consequence. -/
theorem Post.mono {x : Res α} {E E' : Prop} {Q Q' : α → Prop} (h : Post x E Q) (hE : E → E')
    (hQ : ∀ a, Q a → Q' a) : Post x E' Q' := by
  cases x with
  | error t => exact hE h
  | ok a => exact hQ a h

end Res

namespace Proc

variable {σ α β : Type}

@[simp] theorem pure_apply (a : α) (s : σ) : (pure a : Proc σ α) s = .ok (a, s) := rfl

theorem bind_apply (x : Proc σ α) (f : α → Proc σ β) (s : σ) :
    (x >>= f) s = Except.bind (x s) (fun r => f r.1 r.2) := rfl

/-- The environment state after the first computation is the one the second starts from. -/
theorem bind_eq_ok {x : Proc σ α} {f : α → Proc σ β} {s s'' : σ} {b : β} :
    (x >>= f) s = .ok (b, s'') ↔ ∃ a s', x s = .ok (a, s') ∧ f a s' = .ok (b, s'') := by
  rw [bind_apply]
  cases h : x s with
  | error t => simp [Except.bind]
  | ok r =>
    obtain ⟨a, s'⟩ := r
    simp [Except.bind]

theorem bind_of_ok {x : Proc σ α} {f : α → Proc σ β} {s s' : σ} {a : α}
    (h : x s = .ok (a, s')) : (x >>= f) s = f a s' := by
  rw [bind_apply, h]; rfl

theorem bind_of_error {x : Proc σ α} {f : α → Proc σ β} {s : σ} {t : Trap}
    (h : x s = .error t) : (x >>= f) s = .error t := by
  rw [bind_apply, h]; rfl

/-- A pure computation inside a `Proc`: it does not touch the environment. -/
def ofRes (x : Res α) : Proc σ α := fun s =>
  match x with
  | .ok a => .ok (a, s)
  | .error t => .error t

@[simp] theorem ofRes_ok (a : α) (s : σ) : (ofRes (.ok a) : Proc σ α) s = .ok (a, s) := rfl

@[simp] theorem ofRes_error (t : Trap) (s : σ) :
    (ofRes (.error t) : Proc σ α) s = .error t := rfl

theorem ofRes_eq_ok {x : Res α} {a : α} {s s' : σ} :
    ofRes x s = .ok (a, s') ↔ x = .ok a ∧ s' = s := by
  cases x with
  | error t => simp
  | ok b => simp [eq_comm]

theorem ofRes_bind {x : Res α} {f : α → Proc σ β} {a : α} (hx : x = .ok a) :
    (ofRes x >>= f) = f a := by
  rw [hx]
  rfl

/-- From every state the computation returns, with a result that has `Q`. -/
def Returns (x : Proc σ α) (Q : α → Prop) : Prop := ∀ s, ∃ a s', x s = .ok (a, s') ∧ Q a

theorem returns_pure {a : α} {Q : α → Prop} (h : Q a) : Returns (pure a : Proc σ α) Q :=
  fun s => ⟨a, s, rfl, h⟩

theorem returns_ofRes {x : Res α} {a : α} (hx : x = .ok a) :
    Returns (ofRes x : Proc σ α) fun b => b = a :=
  fun s => ⟨a, s, by rw [hx]; rfl, rfl⟩

theorem Returns.bind {x : Proc σ α} {f : α → Proc σ β} {Q : α → Prop} {R : β → Prop}
    (hx : Returns x Q) (hf : ∀ a, Q a → Returns (f a) R) : Returns (x >>= f) R := by
  intro s
  obtain ⟨a, s', ha, hQ⟩ := hx s
  rw [bind_of_ok ha]
  exact hf a hQ s'

theorem Returns.mono {x : Proc σ α} {Q R : α → Prop} (hx : Returns x Q) (h : ∀ a, Q a → R a) :
    Returns x R := by
  intro s
  obtain ⟨a, s', ha, hQ⟩ := hx s
  exact ⟨a, s', ha, h a hQ⟩

/-- Whatever the computation returns has `Q`. -/
def Gives (x : Proc σ α) (Q : α → Prop) : Prop := ∀ s a s', x s = .ok (a, s') → Q a

theorem gives_pure {a : α} {Q : α → Prop} (h : Q a) : Gives (pure a : Proc σ α) Q := by
  intro s b s' hrun
  cases hrun
  exact h

theorem gives_ofRes {x : Res α} {Q : α → Prop} (h : ∀ a, x = .ok a → Q a) :
    Gives (ofRes x : Proc σ α) Q := by
  intro s a s' hrun
  exact h a (ofRes_eq_ok.mp hrun).1

theorem gives_true (x : Proc σ α) : Gives x fun _ => True := fun _ _ _ _ => trivial

theorem Gives.bind {x : Proc σ α} {f : α → Proc σ β} {Q : α → Prop} {R : β → Prop}
    (hx : Gives x Q) (hf : ∀ a, Q a → Gives (f a) R) : Gives (x >>= f) R := by
  intro s b s'' hrun
  obtain ⟨a, s', ha, hb⟩ := bind_eq_ok.mp hrun
  exact hf a (hx s a s' ha) s' b s'' hb

theorem Gives.mono {x : Proc σ α} {Q R : α → Prop} (hx : Gives x Q) (h : ∀ a, Q a → R a) :
    Gives x R := fun s a s' hrun => h a (hx s a s' hrun)

/-- Whatever the first computation returns, the second one returns. -/
def Within (x y : Proc σ α) : Prop := ∀ s r, x s = .ok r → y s = .ok r

theorem within_refl (x : Proc σ α) : Within x x := fun _ _ h => h

theorem within_error (t : Trap) (y : Proc σ α) : Within (ofRes (.error t)) y := by
  intro s r h
  cases h

theorem Within.bind {x y : Proc σ α} {f g : α → Proc σ β} (h : Within x y)
    (hfg : ∀ a, Within (f a) (g a)) : Within (x >>= f) (y >>= g) := by
  intro s r hrun
  obtain ⟨b, s''⟩ := r
  obtain ⟨a, s', ha, hb⟩ := bind_eq_ok.mp hrun
  rw [bind_of_ok (h s _ ha)]
  exact hfg a s' _ hb

theorem within_bind (x : Proc σ α) {f g : α → Proc σ β} (hfg : ∀ a, Within (f a) (g a)) :
    Within (x >>= f) (x >>= g) := (within_refl x).bind hfg

/-- Two runs of one computation with different fuels give the same. -/
theorem Within.unique {x x' y : Proc σ α} {s : σ} {r r' : α × σ} (h : Within x y)
    (h' : Within x' y) (hx : x s = .ok r) (hx' : x' s = .ok r') : r = r' := by
  have hboth := h s r hx
  rw [h' s r' hx'] at hboth
  exact (Except.ok.inj hboth).symm

end Proc

end CModel
