import UdfRead.Lib.Comp

/-!
# UdfRead.Lib.Extents

A sequence of extents, each with a number of slots, laid end to end. `locate` finds the extent of
a slot and the index of the slot in it. Inside one extent, consecutive slots are consecutive
indices (`locate_run`), and a slot has no extent exactly behind the last one (`locate_none`).
`flatten` lists what the slots hold, and `locate` is the lookup in that list (`getElem?_flatten`).
-/

namespace CModel
namespace Extents

variable {α : Type} (size : α → Nat)

def locate : List α → Nat → Option (α × Nat)
  | [], _ => none
  | e :: rest, n => if n < size e then some (e, n) else locate rest (n - size e)

/-- The number of slots of all extents. -/
def total (l : List α) : Nat := (l.map size).sum

variable {size}

@[simp] theorem total_nil : total size [] = 0 := rfl

@[simp] theorem total_cons (e : α) (l : List α) : total size (e :: l) = size e + total size l := by
  simp [total]

theorem locate_none {l : List α} {n : Nat} : locate size l n = none ↔ total size l ≤ n := by
  induction l generalizing n with
  | nil => simp [locate]
  | cons e rest ih =>
    rw [locate, total_cons]
    split
    · simp; omega
    · rw [ih]; omega

theorem locate_lt {l : List α} {n k : Nat} {e : α} (h : locate size l n = some (e, k)) :
    k < size e := by
  induction l generalizing n with
  | nil => cases h
  | cons d rest ih =>
    rw [locate] at h
    split at h
    · cases h; assumption
    · exact ih h

/-- Going `j` slots on without leaving the extent. -/
theorem locate_run {l : List α} {n k j : Nat} {e : α} (h : locate size l n = some (e, k))
    (hj : k + j < size e) : locate size l (n + j) = some (e, k + j) := by
  induction l generalizing n with
  | nil => cases h
  | cons d rest ih =>
    rw [locate] at h ⊢
    split at h
    · cases h
      rw [if_pos hj]
    · rename_i hn
      rw [if_neg (by omega), show n + j - size d = n - size d + j by omega]
      exact ih h

theorem locate_append {before after : List α} {e : α} {k : Nat} (hk : k < size e) :
    locate size (before ++ e :: after) (total size before + k) = some (e, k) := by
  induction before with
  | nil =>
    rw [List.nil_append, locate, total_nil, Nat.zero_add, if_pos hk]
  | cons d before ih =>
    rw [List.cons_append, locate, total_cons, if_neg (by omega)]
    rwa [show size d + total size before + k - size d = total size before + k by omega]

/-- The extents in front of a slot. -/
theorem locate_split {l : List α} {n k : Nat} {e : α} (h : locate size l n = some (e, k)) :
    ∃ before after, l = before ++ e :: after ∧ n = total size before + k := by
  induction l generalizing n with
  | nil => cases h
  | cons d rest ih =>
    rw [locate] at h
    split at h
    · cases h
      exact ⟨[], rest, rfl, by simp⟩
    · obtain ⟨before, after, rfl, hn⟩ := ih h
      refine ⟨d :: before, after, rfl, ?_⟩
      rw [total_cons]
      omega

section Flatten

variable {β : Type} (size) (g : α → Nat → β)

/-- What the slots of all extents hold, in order: slot `k` of extent `e` holds `g e k`. -/
def flatten (l : List α) : List β := l.flatMap fun e => (List.range (size e)).map (g e)

theorem flatten_cons (e : α) (l : List α) :
    flatten size g (e :: l) = (List.range (size e)).map (g e) ++ flatten size g l := rfl

theorem getElem?_flatten (l : List α) (n : Nat) :
    (flatten size g l)[n]? = (locate size l n).map fun r => g r.1 r.2 := by
  induction l generalizing n with
  | nil => rfl
  | cons e rest ih =>
    rw [flatten_cons, locate]
    by_cases h : n < size e
    · rw [if_pos h, List.getElem?_append_left (by simpa using h)]
      simp [h]
    · rw [if_neg h, List.getElem?_append_right (by simpa using h), ← ih]
      simp

theorem flatten_congr {size' : α → Nat} {l : List α} (h : ∀ e ∈ l, size e = size' e) :
    flatten size g l = flatten size' g l :=
  List.flatMap_congr fun e he => by rw [h e he]

end Flatten

end Extents
end CModel
