import Mathlib

/-!
# UdfRead.Lib.Orbit

Following a partial function from a start, and what is gathered on the way. Over a finite type a
walk that stops at a monotone condition ends exactly if it comes back to no element without having
met the condition (`ends_iff_noReturn`).
-/

namespace CModel

variable {α β : Type} (f : α → Option α) (g : α → β)

/-- The element after `n` steps. -/
def orbit (a : α) : Nat → Option α
  | 0 => some a
  | n + 1 => (orbit a n).bind f

/-- What the elements before step `n` add to `b`. -/
def gather [Max β] (a : α) (b : β) : Nat → β
  | 0 => b
  | n + 1 =>
    match orbit f a n with
    | some x => gather a b n ⊔ g x
    | none => gather a b n

/-- The walk comes to an end, or has gathered enough. -/
def Ends [Max β] (P : β → Prop) (a : α) (b : β) : Prop :=
  ∃ n, orbit f a n = none ∨ P (gather f g a b n)

/-- Whenever the walk comes back to an element, it has gathered enough. -/
def NoReturn [Max β] (P : β → Prop) (a : α) (b : β) : Prop :=
  ∀ i j, i < j → orbit f a i ≠ none → orbit f a i = orbit f a j → P (gather f g a b j)

section

variable {f g} {a a' : α} {i j k m n : Nat}

theorem orbit_shift (h : f a = some a') (n : Nat) : orbit f a (n + 1) = orbit f a' n := by
  induction n with
  | zero => simp [orbit, h]
  | succ n ih => rw [orbit, ih]; rfl

theorem orbit_none (h : orbit f a n = none) (hle : n ≤ m) : orbit f a m = none := by
  induction m, hle using Nat.le_induction with
  | base => exact h
  | succ m _ ih => rw [orbit, ih]; rfl

theorem orbit_repeat (h : orbit f a i = orbit f a j) (k : Nat) :
    orbit f a (i + k) = orbit f a (j + k) := by
  induction k with
  | zero => exact h
  | succ k ih => rw [← Nat.add_assoc, ← Nat.add_assoc, orbit, orbit, ih]

/-- Behind a repetition, the walk stays among the elements between the two visits. -/
theorem orbit_between (hij : i < j) (h : orbit f a i = orbit f a j) (k : Nat) (hk : i ≤ k) :
    ∃ l, i ≤ l ∧ l < j ∧ orbit f a k = orbit f a l := by
  induction k using Nat.strongRecOn with
  | ind k ih =>
    rcases Nat.lt_or_ge k j with hkj | hkj
    · exact ⟨k, hk, hkj, rfl⟩
    · obtain ⟨l, hl, hlj, he⟩ := ih (i + (k - j)) (by omega) (by omega)
      have hr := orbit_repeat h (k - j)
      rw [show j + (k - j) = k by omega] at hr
      exact ⟨l, hl, hlj, hr.symm.trans he⟩

theorem orbit_never_none (hij : i < j) (h : orbit f a i = orbit f a j) (hi : orbit f a i ≠ none)
    (k : Nat) : orbit f a k ≠ none := by
  intro hk
  have hlast : ∀ l, l < j → orbit f a l ≠ none := fun l hl hn =>
    hi (h.trans (orbit_none hn (le_of_lt hl)))
  rcases Nat.lt_or_ge k i with hki | hki
  · exact hlast k (by omega) hk
  · obtain ⟨l, -, hl, he⟩ := orbit_between hij h k hki
    exact hlast l hl (he.symm.trans hk)

theorem exists_repeat [Finite α] (f : α → Option α) (a : α) :
    ∃ i j, i < j ∧ orbit f a i = orbit f a j := by
  obtain ⟨i, j, hne, he⟩ := Finite.exists_ne_map_eq_of_infinite (orbit f a)
  rcases lt_or_gt_of_ne hne with hlt | hlt
  · exact ⟨i, j, hlt, he⟩
  · exact ⟨j, i, hlt, he.symm⟩

variable [SemilatticeSup β] {b : β} {P : β → Prop}

theorem gather_shift (h : f a = some a') (n : Nat) :
    gather f g a b (n + 1) = gather f g a' (b ⊔ g a) n := by
  induction n with
  | zero => simp [gather, orbit]
  | succ n ih =>
    rw [gather, orbit_shift h, ih, gather]

theorem gather_mono (hle : m ≤ n) : gather f g a b m ≤ gather f g a b n := by
  induction n, hle using Nat.le_induction with
  | base => exact le_refl _
  | succ n _ ih =>
    refine ih.trans ?_
    rw [gather]
    split
    · exact le_sup_left
    · exact le_refl _

theorem le_gather {x : α} (h : orbit f a m = some x) (hlt : m < n) : g x ≤ gather f g a b n := by
  refine le_trans ?_ (gather_mono (show m + 1 ≤ n from hlt))
  rw [gather, h]
  exact le_sup_right

/-- Nothing is added behind the end of the walk. -/
theorem gather_end (h : orbit f a n = none) (hle : n ≤ m) :
    gather f g a b m = gather f g a b n := by
  induction m, hle using Nat.le_induction with
  | base => rfl
  | succ m hm ih => rw [gather, orbit_none h hm, ih]

/-- Nothing is added behind a repetition. -/
theorem gather_repeat (hij : i < j) (h : orbit f a i = orbit f a j) (hle : j ≤ k) :
    gather f g a b k = gather f g a b j := by
  induction k, hle using Nat.le_induction with
  | base => rfl
  | succ k hk ih =>
    rw [gather]
    cases ho : orbit f a k with
    | none => exact ih
    | some x =>
      obtain ⟨l, -, hl, he⟩ := orbit_between hij h k (by omega)
      simp only [ih]
      exact sup_eq_left.mpr (le_gather (he.symm.trans ho) hl)

theorem ends_iff_noReturn [Finite α] (hP : ∀ b b', b ≤ b' → P b → P b') :
    Ends f g P a b ↔ NoReturn f g P a b := by
  constructor
  · rintro ⟨n, hn⟩ i j hij hi h
    have hend := hn.resolve_left (orbit_never_none hij h hi n)
    rcases Nat.le_total n j with hnj | hnj
    · exact hP _ _ (gather_mono hnj) hend
    · rwa [gather_repeat hij h hnj] at hend
  · intro h
    by_contra hc
    unfold Ends at hc
    push Not at hc
    obtain ⟨i, j, hij, he⟩ := exists_repeat f a
    exact (hc j).2 (h i j hij (hc i).1 he)

end

end CModel
