import UdfRead.Lib.Bytes

/-!
# UdfRead.Lib.ModifiedUtf8

Modified UTF-8 of 16-bit code units. A reader takes one unit from the front of a byte string;
a code that the reader takes back unit by unit can be read back as a whole (`readAll_flatMap`).
The lenient reader accepts a unit in any length, the strict one only in the shortest form, where
U+0000 has the form C0 80.
-/

namespace CModel

namespace Mutf8

/-- The three bytes that hold a unit, whether or not it needs them. -/
def encode3 (u : UInt16) : Bytes :=
  [UInt8.ofNat (0xe0 + u.toNat / 4096), UInt8.ofNat (0x80 + u.toNat / 64 % 64),
   UInt8.ofNat (0x80 + u.toNat % 64)]

/-- The Modified UTF-8 encoding of one code unit. -/
def encode (u : UInt16) : Bytes :=
  if 1 ≤ u.toNat ∧ u.toNat ≤ 0x7f then [UInt8.ofNat u.toNat]
  else if u.toNat ≤ 0x7ff then
    [UInt8.ofNat (0xc0 + u.toNat / 64), UInt8.ofNat (0x80 + u.toNat % 64)]
  else encode3 u

/-- A continuation byte. -/
def isTail (b : UInt8) : Bool := 0x80 ≤ b.toNat && b.toNat < 0xc0

/-- The lenient reader: the first unit of the string, and the bytes behind it. -/
def readUnit : Bytes → Option (UInt16 × Bytes)
  | [] => none
  | a :: rest =>
    if a.toNat < 0x80 then if a = 0 then none else some (UInt16.ofNat a.toNat, rest)
    else if 0xc0 ≤ a.toNat ∧ a.toNat < 0xe0 then
      match rest with
      | b :: rest =>
        if isTail b then some (UInt16.ofNat ((a.toNat - 0xc0) * 64 + (b.toNat - 0x80)), rest)
        else none
      | [] => none
    else if 0xe0 ≤ a.toNat ∧ a.toNat < 0xf0 then
      match rest with
      | b :: c :: rest =>
        if isTail b && isTail c then
          some (UInt16.ofNat ((a.toNat - 0xe0) * 4096 + (b.toNat - 0x80) * 64 + (c.toNat - 0x80)),
            rest)
        else none
      | _ => none
    else none

/-- The strict reader rejects a unit that is not in its shortest form. -/
def readStrict (s : Bytes) : Option (UInt16 × Bytes) :=
  match readUnit s with
  | none => none
  | some (u, rest) => if s.length = (encode u).length + rest.length then some (u, rest) else none

/-- Read units up to the end of the string; `fuel` bounds their number. -/
def readAll (reader : Bytes → Option (UInt16 × Bytes)) : (fuel : Nat) → Bytes → Option (List UInt16)
  | _, [] => some []
  | 0, _ :: _ => none
  | fuel + 1, b :: s =>
    match reader (b :: s) with
    | none => none
    | some (u, rest) => (readAll reader fuel rest).map (u :: ·)

/-- The standard decoder. -/
def decode (s : Bytes) : Option (List UInt16) := readAll readStrict s.length s

/-! ## One unit -/

section

variable {u : UInt16} {rest : Bytes}

theorem encode_ne_nil (u : UInt16) : encode u ≠ [] := by
  unfold encode
  split
  · simp
  · split
    · simp
    · simp [encode3]

theorem ofNat_toNat {n : Nat} (h : n < 256) : (UInt8.ofNat n).toNat = n := by
  rw [UInt8.toNat_ofNat', Nat.mod_eq_of_lt h]

theorem isTail_ofNat {n : Nat} (h : n < 64) : isTail (UInt8.ofNat (0x80 + n)) = true := by
  unfold isTail
  rw [ofNat_toNat (by omega)]
  simp
  omega

theorem ofNat_unit {n : Nat} (h : n = u.toNat) : UInt16.ofNat n = u := by
  rw [h]
  exact UInt16.ofNat_toNat

theorem readUnit_encode3 (u : UInt16) (rest : Bytes) : readUnit (encode3 u ++ rest) = some (u, rest) := by
  have hu := u.toNat_lt
  have ha : (UInt8.ofNat (0xe0 + u.toNat / 4096)).toNat = 0xe0 + u.toNat / 4096 :=
    ofNat_toNat (by omega)
  have hb : (UInt8.ofNat (0x80 + u.toNat / 64 % 64)).toNat = 0x80 + u.toNat / 64 % 64 :=
    ofNat_toNat (by omega)
  have hc : (UInt8.ofNat (0x80 + u.toNat % 64)).toNat = 0x80 + u.toNat % 64 :=
    ofNat_toNat (by omega)
  have hval : (0xe0 + u.toNat / 4096 - 0xe0) * 4096 + (0x80 + u.toNat / 64 % 64 - 0x80) * 64 +
      (0x80 + u.toNat % 64 - 0x80) = u.toNat := by omega
  simp only [encode3, List.cons_append, List.nil_append, readUnit, ha, hb, hc,
    isTail_ofNat (show u.toNat / 64 % 64 < 64 by omega),
    isTail_ofNat (show u.toNat % 64 < 64 by omega)]
  rw [if_neg (by omega), if_neg (by omega), if_pos (by omega), ofNat_unit hval]
  rfl

theorem readUnit_encode (u : UInt16) (rest : Bytes) : readUnit (encode u ++ rest) = some (u, rest) := by
  unfold encode
  split
  · rename_i h
    have ha : (UInt8.ofNat u.toNat).toNat = u.toNat := ofNat_toNat (by omega)
    have hne : ¬ UInt8.ofNat u.toNat = 0 := fun hc => by
      rw [hc] at ha
      have : (0 : UInt8).toNat = 0 := rfl
      omega
    simp only [List.cons_append, List.nil_append, readUnit, ha]
    rw [if_pos (by omega), if_neg hne, ofNat_unit rfl]
  · split
    · have ha : (UInt8.ofNat (0xc0 + u.toNat / 64)).toNat = 0xc0 + u.toNat / 64 :=
        ofNat_toNat (by omega)
      have hb : (UInt8.ofNat (0x80 + u.toNat % 64)).toNat = 0x80 + u.toNat % 64 :=
        ofNat_toNat (by omega)
      have hval : (0xc0 + u.toNat / 64 - 0xc0) * 64 + (0x80 + u.toNat % 64 - 0x80) = u.toNat := by
        omega
      simp only [List.cons_append, List.nil_append, readUnit, ha, hb,
        isTail_ofNat (show u.toNat % 64 < 64 by omega)]
      rw [if_neg (by omega), if_pos (by omega), if_pos trivial, ofNat_unit hval]
    · exact readUnit_encode3 u rest

theorem readStrict_encode (u : UInt16) (rest : Bytes) :
    readStrict (encode u ++ rest) = some (u, rest) := by
  rw [readStrict, readUnit_encode]
  exact if_pos (by simp)

/-- A unit below U+0800 in three bytes is overlong. -/
theorem readStrict_encode3 (h : u.toNat ≤ 0x7ff) (rest : Bytes) :
    readStrict (encode3 u ++ rest) = none := by
  rw [readStrict, readUnit_encode3]
  refine if_neg ?_
  have hlen : (encode u).length ≤ 2 := by
    unfold encode
    split
    · simp
    · simp
  simp [encode3]
  omega

theorem zero_notMem_encode3 (u : UInt16) : 0 ∉ encode3 u := by
  have hu := u.toNat_lt
  have hne : ∀ n, 0 < n → n < 256 → ¬ 0 = UInt8.ofNat n := fun n hpos hlt hc => by
    have ht := ofNat_toNat hlt
    rw [← hc] at ht
    exact absurd ht (by simp; omega)
  simp only [encode3, List.mem_cons, List.not_mem_nil, or_false, not_or]
  exact ⟨hne _ (by omega) (by omega), hne _ (by omega) (by omega), hne _ (by omega) (by omega)⟩

theorem zero_notMem_encode (u : UInt16) : 0 ∉ encode u := by
  have hne : ∀ n, 0 < n → n < 256 → ¬ 0 = UInt8.ofNat n := fun n hpos hlt hc => by
    have ht := ofNat_toNat hlt
    rw [← hc] at ht
    exact absurd ht (by simp; omega)
  unfold encode
  split
  · rw [List.mem_singleton]
    exact hne _ (by omega) (by omega)
  · split
    · simp only [List.mem_cons, List.not_mem_nil, or_false, not_or]
      exact ⟨hne _ (by omega) (by omega), hne _ (by omega) (by omega)⟩
    · exact zero_notMem_encode3 u

end

/-! ## Strings -/

section

variable {reader : Bytes → Option (UInt16 × Bytes)} {code : UInt16 → Bytes} {us vs : List UInt16}

theorem length_le_flatMap (hne : ∀ u, code u ≠ []) (us : List UInt16) :
    us.length ≤ (us.flatMap code).length := by
  induction us with
  | nil => simp
  | cons u us ih =>
    have := List.length_pos_iff.mpr (hne u)
    rw [List.flatMap_cons, List.length_append, List.length_cons]
    omega

theorem readAll_step {fuel : Nat} {u : UInt16} {s rest : Bytes} (hs : s ≠ [])
    (h : reader s = some (u, rest)) :
    readAll reader (fuel + 1) s = (readAll reader fuel rest).map (u :: ·) := by
  cases s with
  | nil => exact absurd rfl hs
  | cons b s => rw [readAll, h]

/-- A code whose units are read back one at a time is read back as a whole. -/
theorem readAll_flatMap (hne : ∀ u, code u ≠ [])
    (hread : ∀ u ∈ us, ∀ rest, reader (code u ++ rest) = some (u, rest)) {fuel : Nat}
    (hfuel : us.length ≤ fuel) : readAll reader fuel (us.flatMap code) = some us := by
  induction us generalizing fuel with
  | nil => cases fuel <;> rfl
  | cons u us ih =>
    cases fuel with
    | zero => simp at hfuel
    | succ fuel =>
      rw [List.flatMap_cons, readAll_step (by simp [hne u]) (hread u (by simp) _),
        ih (fun v hv => hread v (by simp [hv])) (by simpa using hfuel)]
      rfl

/-- Reading fails at the first unit that the reader rejects. -/
theorem readAll_none {u : UInt16} (hne : ∀ u, code u ≠ [])
    (hread : ∀ v, v ≠ u → ∀ rest, reader (code v ++ rest) = some (v, rest))
    (hbad : ∀ rest, reader (code u ++ rest) = none) (hu : u ∈ us) (fuel : Nat) :
    readAll reader fuel (us.flatMap code) = none := by
  induction us generalizing fuel with
  | nil => cases hu
  | cons v us ih =>
    obtain ⟨b, s, hs⟩ := List.exists_cons_of_ne_nil
      (show code v ++ us.flatMap code ≠ [] by simp [hne v])
    rw [List.flatMap_cons]
    cases fuel with
    | zero => rw [hs, readAll]
    | succ fuel =>
      by_cases hvu : v = u
      · rw [hs, readAll, ← hs, hvu, hbad]
      · rw [readAll_step (by simp [hne v]) (hread v hvu _)]
        rw [ih ((List.mem_cons.mp hu).resolve_left (Ne.symm hvu))]
        rfl

/-- A code that can be read back is injective on strings. -/
theorem flatMap_injective (hne : ∀ u, code u ≠ [])
    (hread : ∀ u rest, reader (code u ++ rest) = some (u, rest))
    (h : us.flatMap code = vs.flatMap code) : us = vs := by
  have hus : readAll reader (max us.length vs.length) (us.flatMap code) = some us :=
    readAll_flatMap hne (fun u _ => hread u) (Nat.le_max_left _ _)
  have hvs : readAll reader (max us.length vs.length) (vs.flatMap code) = some vs :=
    readAll_flatMap hne (fun u _ => hread u) (Nat.le_max_right _ _)
  rw [h, hvs] at hus
  exact (Option.some.inj hus).symm

end

end Mutf8

end CModel
