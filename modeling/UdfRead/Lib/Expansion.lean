import Mathlib

/-!
# UdfRead.Lib.Expansion

A list whose last element is replaced by what it stands for, as long as it stands for something and
the list keeps below a limit:

* `Unfolds`  - this comes to an end, without reaching the limit.
* `Vanishes` - the element is used up: so is everything it stands for.
* `Behind`   - the second element becomes the last one while the first is replaced.
* `Visits`   - the element becomes the last one, with that many in front of it.

Over a finite type the list comes to an end exactly if no visited element is behind itself, and the
limit is kept at each visit (`unfolds_iff`).
-/

namespace CModel

variable {α : Type}

inductive Unfolds (expand : α → Option (List α)) (limit : Nat) : List α → Prop where
  | empty : Unfolds expand limit []
  | stop {xs : List α} {a : α} : expand a = none → Unfolds expand limit (xs ++ [a])
  | step {xs ys : List α} {a : α} :
      expand a = some ys → xs.length + ys.length < limit → Unfolds expand limit (xs ++ ys) →
      Unfolds expand limit (xs ++ [a])

inductive Vanishes (expand : α → Option (List α)) : α → Prop where
  | intro {a : α} {ys : List α} :
      expand a = some ys → (∀ y ∈ ys, Vanishes expand y) → Vanishes expand a

def Behind (expand : α → Option (List α)) (a b : α) : Prop :=
  ∃ xs ys, expand a = some (xs ++ b :: ys) ∧ ∀ y ∈ ys, Vanishes expand y

inductive Visits (expand : α → Option (List α)) (start : List α) : α → Nat → Prop where
  | first {xs ys : List α} {a : α} :
      start = xs ++ a :: ys → (∀ y ∈ ys, Vanishes expand y) → Visits expand start a xs.length
  | next {xs ys : List α} {a b : α} {n : Nat} :
      Visits expand start a n → expand a = some (xs ++ b :: ys) →
      (∀ y ∈ ys, Vanishes expand y) → Visits expand start b (n + xs.length)

/-- No visited element is behind itself, and each is replaced by a list that keeps the limit. -/
structure Unfoldable (expand : α → Option (List α)) (limit : Nat) (start : List α) : Prop where
  noReturn : ∀ a n, Visits expand start a n → ¬ Relation.TransGen (Behind expand) a a
  fits : ∀ a n ys, Visits expand start a n → expand a = some ys → n + ys.length < limit

section

variable {expand : α → Option (List α)} {limit n : Nat} {start xs ys : List α} {a b : α}

theorem Vanishes.of_expand (h : Vanishes expand a) (hys : expand a = some ys) :
    ∀ y ∈ ys, Vanishes expand y := by
  obtain ⟨hzs, hv⟩ := h
  rw [hys] at hzs
  cases hzs
  exact hv

/-- Whatever is visited from `xs ++ [a]` is `a`, or is visited once `a` is replaced. -/
theorem Visits.split (hys : expand a = some ys) (h : Visits expand (xs ++ [a]) b n) :
    b = a ∧ n = xs.length ∨ Visits expand (xs ++ ys) b n := by
  induction h with
  | @first us vs b hsplit hv =>
    rcases List.eq_nil_or_concat vs with rfl | ⟨vs, c, rfl⟩
    · obtain ⟨rfl, hba⟩ := List.append_inj' hsplit rfl
      cases hba
      exact .inl ⟨rfl, rfl⟩
    · have happ : xs ++ [a] = (us ++ b :: vs) ++ [c] := by simpa using hsplit
      obtain ⟨rfl, hac⟩ := List.append_inj' happ rfl
      cases hac
      have hrest : ∀ y ∈ vs ++ ys, Vanishes expand y := by
        intro y hy
        rcases List.mem_append.mp hy with hy | hy
        · exact hv y (by simp [hy])
        · exact (hv a (by simp)).of_expand hys y hy
      exact .inr (.first (by simp) hrest)
  | @next us vs c b n _ hc hv ih =>
    rcases ih with ⟨rfl, rfl⟩ | ih
    · rw [hys] at hc
      cases hc
      right
      rw [← List.length_append]
      exact .first (by simp) hv
    · exact .inr (.next ih hc hv)

/-- What is behind the last element is visited once that is replaced. -/
theorem Behind.visits (hys : expand a = some ys) (h : Behind expand a b) :
    ∃ n, Visits expand (xs ++ ys) b n := by
  obtain ⟨us, vs, he, hv⟩ := h
  rw [hys] at he
  cases he
  exact ⟨(xs ++ us).length, .first (by simp) hv⟩

/-- From the empty list nothing is visited. -/
theorem not_visits_nil : ¬ Visits expand [] a n := by
  intro h
  induction h with
  | first hsplit _ => simp at hsplit
  | next _ _ _ ih => exact ih

/-- Where the last element stands for nothing, nothing else is visited. -/
theorem Visits.last (ha : expand a = none) (h : Visits expand (xs ++ [a]) b n) : b = a := by
  induction h with
  | @first us vs b hsplit hv =>
    rcases List.eq_nil_or_concat vs with rfl | ⟨vs, c, rfl⟩
    · cases (List.append_inj' hsplit rfl).2
      rfl
    · have happ : xs ++ [a] = (us ++ b :: vs) ++ [c] := by simpa using hsplit
      cases (List.append_inj' happ rfl).2
      obtain ⟨hzs, _⟩ := hv a (by simp)
      rw [ha] at hzs
      cases hzs
  | next _ hc _ ih =>
    rw [ih, ha] at hc
    cases hc

/-! ## When the list comes to an end -/

theorem Unfolds.unfoldable (h : Unfolds expand limit start) :
    Unfoldable expand limit start := by
  induction h with
  | empty => exact ⟨fun _ _ h => absurd h not_visits_nil, fun _ _ _ h => absurd h not_visits_nil⟩
  | @stop xs a ha =>
    constructor
    · intro b n hb hreturn
      rw [hb.last ha] at hreturn
      obtain ⟨c, ⟨us, vs, hc, _⟩, _⟩ := Relation.TransGen.head'_iff.mp hreturn
      rw [ha] at hc
      cases hc
    · intro b n ys hb hys
      rw [hb.last ha, ha] at hys
      cases hys
  | @step xs ys a hys hlimit _ ih =>
    constructor
    · intro b n hb hreturn
      rcases hb.split hys with ⟨rfl, _⟩ | hb
      · -- the next element of the cycle is visited once `b` is replaced
        obtain ⟨c, hc, hback⟩ := Relation.TransGen.head'_iff.mp hreturn
        obtain ⟨m, hvisit⟩ := hc.visits hys
        exact ih.noReturn c m hvisit (Relation.TransGen.tail' hback hc)
      · exact ih.noReturn b n hb hreturn
    · intro b n zs hb hzs
      rcases hb.split hys with ⟨rfl, rfl⟩ | hb
      · rw [hys] at hzs
        cases hzs
        exact hlimit
      · exact ih.fits b n zs hb hzs

/-- If each element of `ys` that becomes the last one can be replaced, so can the whole of `ys`. -/
theorem unfolds_append
    (hstep : ∀ us u vs, ys = us ++ u :: vs → (∀ v ∈ vs, Vanishes expand v) →
      (Vanishes expand u → Unfolds expand limit (xs ++ us)) →
      Unfolds expand limit (xs ++ us ++ [u]))
    (hxs : (∀ y ∈ ys, Vanishes expand y) → Unfolds expand limit xs) :
    Unfolds expand limit (xs ++ ys) := by
  have hpart : ∀ us vs, ys = us ++ vs → (∀ v ∈ vs, Vanishes expand v) →
      Unfolds expand limit (xs ++ us) := by
    intro us
    induction us using List.reverseRecOn with
    | nil =>
      intro vs hsplit hv
      rw [List.append_nil]
      exact hxs (by rwa [hsplit])
    | append_singleton us u ih =>
      intro vs hsplit hv
      rw [← List.append_assoc]
      refine hstep us u vs (by simpa using hsplit) hv fun hu =>
        ih (u :: vs) (by simpa using hsplit) ?_
      intro v hmem
      rcases List.mem_cons.mp hmem with rfl | hmem
      · exact hu
      · exact hv v hmem
  exact hpart ys [] (by simp) (by simp)

/-- The order in which the visited elements are replaced. -/
theorem Unfoldable.wellFounded [Finite α] (h : Unfoldable expand limit start) :
    WellFounded fun b a : { a // ∃ n, Visits expand start a n } =>
      Relation.TransGen (Behind expand) a b := by
  let r : { a // ∃ n, Visits expand start a n } → { a // ∃ n, Visits expand start a n } → Prop :=
    fun b a => Relation.TransGen (Behind expand) a b
  have htrans : IsTrans _ r := ⟨fun _ _ _ hab hbc => Relation.TransGen.trans hbc hab⟩
  have hirrefl : Std.Irrefl r := ⟨fun a ha => a.2.elim fun n hn => h.noReturn a n hn ha⟩
  exact Finite.wellFounded_of_trans_of_irrefl r

theorem Unfoldable.unfolds [Finite α] (h : Unfoldable expand limit start) :
    Unfolds expand limit start := by
  -- an element that is visited can be replaced, if the list in front of it can be once it is used up
  have hvisit : ∀ a : { a // ∃ n, Visits expand start a n }, ∀ xs : List α,
      Visits expand start a xs.length → (Vanishes expand a → Unfolds expand limit xs) →
      Unfolds expand limit (xs ++ [a.1]) := by
    intro a
    induction a using h.wellFounded.induction with
    | _ a ih =>
      intro xs ha hxs
      cases hys : expand a with
      | none => exact .stop hys
      | some ys =>
        refine .step hys (h.fits a _ ys ha hys) (unfolds_append ?_ fun hv => hxs (.intro hys hv))
        intro us u vs hsplit hv hus
        have hu : Visits expand start u (xs.length + us.length) := .next ha (hsplit ▸ hys) hv
        rw [← List.length_append] at hu
        exact ih ⟨u, _, hu⟩ (.single ⟨us, vs, hsplit ▸ hys, hv⟩) (xs ++ us) hu hus
  rw [← List.nil_append start]
  refine unfolds_append ?_ fun _ => .empty
  intro us u vs hsplit hv hus
  have hu : Visits expand start u us.length := .first hsplit hv
  exact hvisit ⟨u, _, hu⟩ us hu hus

theorem unfolds_iff [Finite α] : Unfolds expand limit start ↔ Unfoldable expand limit start :=
  ⟨Unfolds.unfoldable, Unfoldable.unfolds⟩

end

end CModel
