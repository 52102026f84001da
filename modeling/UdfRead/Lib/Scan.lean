import UdfRead.Lib.Log

/-!
# UdfRead.Lib.Scan

The loop `for (; x <= last; x++)` over 32-bit numbers, which is left when the visit of a number
gives a result:

* `scanTo` - the loop with fuel, as it is run.
* `Scan`   - its terminating runs, with the numbers they visit.
* `scanList` - the visit of the numbers of a list, which always ends.

The loop ends by itself in front of the largest number only: `last < 2 ^ 32 - 1` makes it the visit
of a list, and with `last = 2 ^ 32 - 1` it comes back to number 0.
-/

namespace CModel

variable {σ β : Type}

/-- `n` numbers from `x` on. -/
def numbersFrom : (n : Nat) → (x : UInt32) → List UInt32
  | 0, _ => []
  | n + 1, x => x :: numbersFrom n (x + 1)

def scanTo (visit : UInt32 → Proc σ (Option β)) (last : UInt32) :
    (fuel : Nat) → (x : UInt32) → Proc σ (Option β)
  | 0, _ => Proc.ofRes (.error .outOfFuel)
  | fuel + 1, x => do
    if ¬ x ≤ last then return none
    match ← visit x with
    | some r => return some r
    | none => scanTo visit last fuel (x + 1)

def scanList (visit : UInt32 → Proc σ (Option β)) : List UInt32 → Proc σ (Option β)
  | [] => pure none
  | x :: xs => do
    match ← visit x with
    | some r => return some r
    | none => scanList visit xs

inductive Scan (visit : UInt32 → Proc σ (Option β)) (last : UInt32) :
    (x : UInt32) → σ → List UInt32 → Option β → σ → Prop where
  | stop {x : UInt32} {s : σ} : ¬ x ≤ last → Scan visit last x s [] none s
  | found {x : UInt32} {s s' : σ} {r : β} :
      x ≤ last → visit x s = .ok (some r, s') → Scan visit last x s [x] (some r) s'
  | next {x : UInt32} {s s' s'' : σ} {xs : List UInt32} {r : Option β} :
      x ≤ last → visit x s = .ok (none, s') → Scan visit last (x + 1) s' xs r s'' →
      Scan visit last x s (x :: xs) r s''

section

variable {visit : UInt32 → Proc σ (Option β)} {last x : UInt32} {s s' s'' : σ} {r r' : Option β}
  {xs xs' : List UInt32} {n fuel : Nat}

/-! ## Numbers -/

theorem mem_numbersFrom (h : x.toNat + n ≤ 2 ^ 32) {y : UInt32} :
    y ∈ numbersFrom n x ↔ x ≤ y ∧ y.toNat < x.toNat + n := by
  induction n generalizing x with
  | zero =>
    rw [UInt32.le_iff_toNat_le]
    simp [numbersFrom]
  | succ n ih =>
    rw [numbersFrom, List.mem_cons]
    by_cases hx : x.toNat + 1 < 2 ^ 32
    · have hx' : (x + 1).toNat = x.toNat + 1 := by
        rw [UInt32.toNat_add]
        exact Nat.mod_eq_of_lt hx
      rw [ih (by omega), UInt32.le_iff_toNat_le, UInt32.le_iff_toNat_le, hx', ← UInt32.toNat_inj]
      omega
    · obtain rfl : n = 0 := by omega
      rw [UInt32.le_iff_toNat_le, ← UInt32.toNat_inj]
      simp only [numbersFrom, List.not_mem_nil, or_false]
      omega

/-! ## The loop -/

theorem scan_of_scanTo (h : scanTo visit last fuel x s = .ok (r, s')) :
    ∃ xs, Scan visit last x s xs r s' := by
  induction fuel generalizing x s with
  | zero => cases h
  | succ fuel ih =>
    rw [scanTo] at h
    by_cases hx : x ≤ last
    · rw [if_neg (not_not_intro hx)] at h
      obtain ⟨v, t, hv, h⟩ := Proc.bind_eq_ok.mp h
      cases v with
      | some v =>
        cases h
        exact ⟨[x], .found hx hv⟩
      | none =>
        obtain ⟨xs, hxs⟩ := ih h
        exact ⟨x :: xs, .next hx hv hxs⟩
    · rw [if_pos hx] at h
      cases h
      exact ⟨[], .stop hx⟩

theorem scanTo_of_scan (h : Scan visit last x s xs r s') :
    scanTo visit last (xs.length + 1) x s = .ok (r, s') := by
  induction h with
  | stop hx =>
    rw [scanTo, if_pos hx]
    rfl
  | found hx hv =>
    rw [scanTo, if_neg (not_not_intro hx), Proc.bind_of_ok hv]
    rfl
  | next hx hv _ ih =>
    rw [List.length_cons, scanTo, if_neg (not_not_intro hx), Proc.bind_of_ok hv]
    exact ih

theorem Scan.unique (h : Scan visit last x s xs r s') (h' : Scan visit last x s xs' r' s'') :
    xs = xs' ∧ r = r' ∧ s' = s'' := by
  induction h generalizing xs' with
  | stop hx =>
    cases h' with
    | stop => exact ⟨rfl, rfl, rfl⟩
    | found hx' => exact absurd hx' hx
    | next hx' => exact absurd hx' hx
  | found hx hv =>
    cases h' with
    | stop hx' => exact absurd hx hx'
    | found _ hv' =>
      rw [hv] at hv'
      cases hv'
      exact ⟨rfl, rfl, rfl⟩
    | next _ hv' =>
      rw [hv] at hv'
      cases hv'
  | next hx hv _ ih =>
    cases h' with
    | stop hx' => exact absurd hx hx'
    | found _ hv' =>
      rw [hv] at hv'
      cases hv'
    | next _ hv' h' =>
      rw [hv] at hv'
      cases hv'
      obtain ⟨rfl, hr, hs⟩ := ih h'
      exact ⟨rfl, hr, hs⟩

theorem Scan.visited (h : Scan visit last x s xs r s') {v : β} (hr : r = some v) :
    ∃ y t, visit y t = .ok (some v, s') := by
  induction h with
  | stop => cases hr
  | found _ hv =>
    cases hr
    exact ⟨_, _, hv⟩
  | next _ _ _ ih => exact ih hr

/-- With a run the loop returns, with any fuel that is enough. -/
theorem scanTo_eq (h : Scan visit last x s xs r s')
    (h' : scanTo visit last fuel x s = .ok (r', s'')) : r' = r ∧ s'' = s' := by
  obtain ⟨xs', hxs'⟩ := scan_of_scanTo h'
  obtain ⟨-, rfl, rfl⟩ := h.unique hxs'
  exact ⟨rfl, rfl⟩

/-- More fuel gives the same result. -/
theorem scanTo_within {fuel' : Nat} (hle : fuel ≤ fuel') :
    Proc.Within (scanTo visit last fuel x) (scanTo visit last fuel' x) := by
  induction fuel generalizing fuel' x with
  | zero => exact Proc.within_error _ _
  | succ fuel ih =>
    obtain ⟨k, rfl⟩ := Nat.exists_eq_add_of_le' hle
    rw [show k + (fuel + 1) = (k + fuel) + 1 from rfl, scanTo, scanTo]
    split
    · exact Proc.within_refl _
    · refine Proc.within_bind _ fun v => ?_
      cases v with
      | some v => exact Proc.within_refl _
      | none => exact ih (Nat.le_add_left fuel k)

/-! ## When the loop ends -/

theorem distance_succ {x y : UInt32} (h : x ≠ y) : (y - (x + 1)).toNat < (y - x).toNat := by
  have hne : x.toNat ≠ y.toNat := fun he => h (UInt32.toNat_inj.mp he)
  have hx := x.toNat_lt
  have hy := y.toNat_lt
  simp only [UInt32.toNat_sub, UInt32.toNat_add, UInt32.toNat_one]
  omega

/-- Visits that change nothing: the loop ends below the largest number, and it comes to every number
otherwise. -/
theorem scan_ends_iff {visit : UInt32 → Proc Unit (Option β)}
    (hvisit : ∀ y, ∃ v, visit y () = .ok (v, ())) :
    (∃ xs r, Scan visit last x () xs r ()) ↔
      last.toNat + 1 < 2 ^ 32 ∨ ∃ y v, visit y () = .ok (some v, ()) := by
  constructor
  · rintro ⟨xs, r, h⟩
    rw [or_iff_not_imp_left]
    intro hmax
    refine Scan.rec (motive := fun _ _ _ _ _ _ => ∃ y v, visit y () = .ok (some v, ())) ?_ ?_ ?_ h
    · intro x _ hx
      have hlt := x.toNat_lt
      exact absurd (UInt32.le_iff_toNat_le.mpr (by omega)) hx
    · exact fun _ hv => ⟨_, _, hv⟩
    · exact fun _ _ _ ih => ih
  · rintro (hlast | ⟨y, w, hy⟩)
    · -- the numbers up to the last one become fewer
      obtain ⟨n, hn⟩ : ∃ n, last.toNat + 1 - x.toNat = n := ⟨_, rfl⟩
      induction n using Nat.strong_induction_on generalizing x with
      | _ n ih =>
        by_cases hx : x ≤ last
        · have hle := UInt32.le_iff_toNat_le.mp hx
          have hsucc : (x + 1).toNat = x.toNat + 1 := by
            rw [UInt32.toNat_add]
            exact Nat.mod_eq_of_lt (by simp; omega)
          obtain ⟨v, hv⟩ := hvisit x
          cases v with
          | some v => exact ⟨_, _, .found hx hv⟩
          | none =>
            obtain ⟨xs, r, hrest⟩ := ih _ (by omega) (x := x + 1) rfl
            exact ⟨_, _, .next hx hv hrest⟩
        · exact ⟨_, _, .stop hx⟩
    · -- the number with a result comes closer
      obtain ⟨n, hn⟩ : ∃ n, (y - x).toNat = n := ⟨_, rfl⟩
      induction n using Nat.strong_induction_on generalizing x with
      | _ n ih =>
        by_cases hx : x ≤ last
        · obtain ⟨v, hv⟩ := hvisit x
          cases v with
          | some v => exact ⟨_, _, .found hx hv⟩
          | none =>
            have hne : x ≠ y := by
              rintro rfl
              rw [hy] at hv
              cases hv
            obtain ⟨xs, r, hrest⟩ := ih _ (hn ▸ distance_succ hne) (x := x + 1) rfl
            exact ⟨_, _, .next hx hv hrest⟩
        · exact ⟨_, _, .stop hx⟩

/-! ## As the visit of a list -/

/-- A result among the first `n` numbers ends the loop there. -/
theorem scan_found {v : β} (hlast : x.toNat + n ≤ last.toNat + 1)
    (h : scanList visit (numbersFrom n x) s = .ok (some v, s')) :
    ∃ xs, Scan visit last x s xs (some v) s' ∧ ∀ y ∈ xs, y ∈ numbersFrom n x := by
  induction n generalizing x s with
  | zero => cases h
  | succ n ih =>
    have hx : x ≤ last := UInt32.le_iff_toNat_le.mpr (by omega)
    rw [numbersFrom, scanList] at h
    obtain ⟨w, t, hw, h⟩ := Proc.bind_eq_ok.mp h
    cases w with
    | some w =>
      cases h
      exact ⟨[x], .found hx hw, by simp [numbersFrom]⟩
    | none =>
      have hlt := last.toNat_lt
      by_cases hn : n = 0
      · subst hn
        cases h
      · have hx' : (x + 1).toNat = x.toNat + 1 := by
          rw [UInt32.toNat_add]
          exact Nat.mod_eq_of_lt (by simp; omega)
        obtain ⟨xs, hxs, hmem⟩ := ih (by omega) h
        refine ⟨x :: xs, .next hx hw hxs, fun y hy => ?_⟩
        rcases List.mem_cons.mp hy with rfl | hy
        · simp [numbersFrom]
        · exact List.mem_cons_of_mem _ (hmem y hy)

/-- Without a result among the first `n` numbers the loop visits them and goes on behind them. -/
theorem scan_behind (hlast : x.toNat + n ≤ last.toNat + 1)
    (h : scanList visit (numbersFrom n x) s = .ok (none, s')) :
    Scan visit last x s xs r s'' ↔
      ∃ ys, xs = numbersFrom n x ++ ys ∧ Scan visit last (x + UInt32.ofNat n) s' ys r s'' := by
  induction n generalizing x s xs with
  | zero =>
    cases h
    simp [numbersFrom]
  | succ n ih =>
    have hx : x ≤ last := UInt32.le_iff_toNat_le.mpr (by omega)
    have hlt := last.toNat_lt
    rw [numbersFrom, scanList] at h
    obtain ⟨w, t, hw, h⟩ := Proc.bind_eq_ok.mp h
    have hnext : x + UInt32.ofNat (n + 1) = x + 1 + UInt32.ofNat n := by
      apply UInt32.toNat_inj.mp
      simp only [UInt32.toNat_add, UInt32.toNat_ofNat', UInt32.toNat_one]
      omega
    cases w with
    | some w => cases h
    | none =>
      have hstep : Scan visit last x s xs r s'' ↔
          ∃ ys, xs = x :: ys ∧ Scan visit last (x + 1) t ys r s'' := by
        constructor
        · intro hs
          cases hs with
          | stop hx' => exact absurd hx hx'
          | found _ hv =>
            rw [hw] at hv
            cases hv
          | next _ hv hs =>
            rw [hw] at hv
            cases hv
            exact ⟨_, rfl, hs⟩
        · rintro ⟨ys, rfl, hs⟩
          exact .next hx hw hs
      rw [hstep, hnext]
      by_cases hn : n = 0
      · subst hn
        cases h
        simp [numbersFrom]
      · have hx' : (x + 1).toNat = x.toNat + 1 := by
          rw [UInt32.toNat_add]
          exact Nat.mod_eq_of_lt (by simp; omega)
        constructor
        · rintro ⟨ys, rfl, hs⟩
          obtain ⟨zs, rfl, hzs⟩ := (ih (by omega) h).mp hs
          exact ⟨zs, rfl, hzs⟩
        · rintro ⟨ys, rfl, hs⟩
          exact ⟨_, rfl, (ih (by omega) h).mpr ⟨ys, rfl, hs⟩⟩

theorem scanList_returns {Q : Option β → Prop} (xs : List UInt32)
    (h : ∀ x, Proc.Returns (visit x) Q) (hnone : Q none) :
    Proc.Returns (scanList visit xs) Q := by
  induction xs with
  | nil => exact Proc.returns_pure hnone
  | cons x xs ih =>
    refine (h x).bind fun v hv => ?_
    cases v with
    | some v => exact Proc.returns_pure hv
    | none => exact ih

/-- Two loops whose visits agree on the numbers that the first one visits. -/
theorem scanTo_congr {visit' : UInt32 → Proc σ (Option β)}
    (hvisit : ∀ xs, Scan visit last x s xs r s' → ∀ y ∈ xs, visit' y = visit y)
    (h : scanTo visit last fuel x s = .ok (r, s')) :
    scanTo visit' last fuel x s = .ok (r, s') := by
  induction fuel generalizing x s with
  | zero => cases h
  | succ fuel ih =>
    obtain ⟨xs, hxs⟩ := scan_of_scanTo h
    rw [scanTo] at h ⊢
    by_cases hx : x ≤ last
    · have hmem : x ∈ xs := by
        cases hxs with
        | stop hx' => exact absurd hx hx'
        | found => exact List.mem_cons_self
        | next => exact List.mem_cons_self
      rw [if_neg (not_not_intro hx)] at h ⊢
      rw [hvisit xs hxs x hmem]
      obtain ⟨v, t, hv, h⟩ := Proc.bind_eq_ok.mp h
      rw [Proc.bind_of_ok hv]
      cases v with
      | some v => exact h
      | none =>
        exact ih (fun ys hys y hy => hvisit (x :: ys) (.next hx hv hys) y
          (List.mem_cons_of_mem _ hy)) h
    · rw [if_pos hx] at h ⊢
      exact h

/-! ## With a log -/

/-- What the visits of a run add to the log. -/
theorem Scan.adds {γ : Type} {visit : UInt32 → Proc (σ × List γ) (Option β)} {R : UInt32 → γ → Prop}
    {s s' : σ × List γ} (h : Scan visit last x s xs r s') (hR : ∀ y, Proc.Adds (visit y) (R y)) :
    ∀ b ∈ s'.2, b ∈ s.2 ∨ ∃ y ∈ xs, R y b := by
  induction h with
  | stop => exact fun b hb => .inl hb
  | found _ hv =>
    obtain ⟨new, hlog, hnew⟩ := hR _ _ _ _ _ _ hv
    intro b hb
    rw [hlog] at hb
    rcases List.mem_append.mp hb with hb | hb
    · exact .inl hb
    · exact .inr ⟨_, List.mem_singleton_self _, hnew b hb⟩
  | next _ hv _ ih =>
    obtain ⟨new, hlog, hnew⟩ := hR _ _ _ _ _ _ hv
    intro b hb
    rcases ih b hb with hb | ⟨y, hy, hb⟩
    · rw [hlog] at hb
      rcases List.mem_append.mp hb with hb | hb
      · exact .inl hb
      · exact .inr ⟨_, List.mem_cons_self, hnew b hb⟩
    · exact .inr ⟨y, List.mem_cons_of_mem _ hy, hb⟩

/-- The same numbers are visited without the log. -/
theorem Scan.forgets {γ : Type} {visit : UInt32 → Proc (σ × List γ) (Option β)}
    {visit' : UInt32 → Proc σ (Option β)} {s s' : σ × List γ} (h : Scan visit last x s xs r s')
    (hv : ∀ y, Proc.Forgets (visit y) (visit' y)) : Scan visit' last x s.1 xs r s'.1 := by
  induction h with
  | stop hx => exact .stop hx
  | found hx hrun => exact .found hx (hv _ _ _ _ _ _ hrun)
  | next hx hrun _ ih => exact .next hx (hv _ _ _ _ _ _ hrun) ih

end

end CModel
