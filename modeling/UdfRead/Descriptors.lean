import UdfRead.Image

/-!
# UdfRead.Descriptors

Allocation descriptors and file entries in buffers that are long enough: what the decoders of
`ecma167.c` return there, as a function of the recorded numbers. They trap in one case only: when
`decode_allocation_extent` stores behind an array whose size is a 32-bit sum
(`decodeAllocationExtent_eq`).
-/

namespace UdfRead

open CModel

/-! ## Tags -/

/-- The checksum of the tag at index `i`. -/
def checksumAt (p : Bytes) (i : Nat) : UInt8 :=
  [0, 1, 2, 3, 5, 6, 7, 8, 9, 10, 11, 12, 13, 14, 15].foldl (fun c k => c + p.getD (i + k) 0) 0

/-- The identifier of the tag at index `i`. -/
def tagAt (p : Bytes) (i : Nat) : TagIdentifier :=
  if checksumAt p i ≠ p.getD (i + 4) 0 then .invalid
  else .ofId (UInt32.ofNat (leVal p i 2))

/-! ## One descriptor -/

namespace AdType

/-- Where the block address stands in a descriptor. -/
def lbaAt : AdType → Nat
  | short => 4
  | long => 4
  | extended => 12

/-- The partition number of the descriptor at index `i`: a short one has none of its own. -/
def partitionAt (t : AdType) (p : Bytes) (i : Nat) (partition : UInt16) : UInt16 :=
  match t with
  | short => partition
  | long => UInt16.ofNat (leVal p (i + 8) 2)
  | extended => UInt16.ofNat (leVal p (i + 16) 2)

theorem size_pos (t : AdType) : 8 ≤ t.size := by
  cases t <;> decide

end AdType

/-- The descriptor recorded at index `i`. -/
def adAt (t : AdType) (p : Bytes) (partition : UInt16) (i : Nat) : LongAd where
  lba := UInt32.ofNat (leVal p (i + t.lbaAt) 4)
  length := UInt32.ofNat (leVal p i 4 % 2 ^ 30)
  partition := t.partitionAt p i partition
  extentType := UInt8.ofNat (leVal p i 4 / 2 ^ 30)

/-- The `n` descriptors recorded from index `i` on. -/
def adsAt (t : AdType) (p : Bytes) (partition : UInt16) : (n i : Nat) → List LongAd
  | 0, _ => []
  | n + 1, i => adAt t p partition i :: adsAt t p partition n (i + t.size)

section

variable {t : AdType} {p : Bytes} {partition : UInt16} {i n cap : Nat} {ad : List LongAd}

theorem tagChecksum_eq (h : i + 16 ≤ p.length) : tagChecksum p i = .ok (checksumAt p i) := by
  simp (disch := omega) only [tagChecksum, checksumAt, byteAt_eq, List.foldlM_cons,
    List.foldlM_nil, List.foldl_cons, List.foldl_nil, Res.ok_bind, Res.pure_def]

theorem decodeDescriptorTag_eq (h : i + 16 ≤ p.length) :
    decodeDescriptorTag p i = .ok (tagAt p i) := by
  simp (disch := omega) only [decodeDescriptorTag, getU16_eq, tagChecksum_eq, byteAt_eq,
    Res.ok_bind, Res.pure_def]
  exact (apply_ite Except.ok _ _ _).symm

theorem agrees_checksum {data b : Bytes} {offset m : Nat} (h : Agrees data offset b m)
    (hm : 16 ≤ m) : checksumAt data offset = checksumAt b 0 := by
  simp (disch := omega) only [checksumAt, List.foldl_cons, List.foldl_nil, h _, Nat.zero_add]

theorem agrees_tag {data b : Bytes} {offset m : Nat} (h : Agrees data offset b m)
    (hm : 16 ≤ m) : tagAt data offset = tagAt b 0 := by
  have hid := h.leVal (i := 0) (w := 2) (by omega)
  rw [Nat.add_zero] at hid
  rw [tagAt, tagAt, agrees_checksum h hm, h 4 (by omega), hid]

@[simp] theorem adsAt_length : (adsAt t p partition n i).length = n := by
  induction n generalizing i with
  | zero => rfl
  | succ n ih => simp [adsAt, ih]

theorem toUInt16_ofNat (v : Nat) : (UInt32.ofNat v).toUInt16 = UInt16.ofNat v := by
  apply UInt16.toNat_inj.mp
  simp only [UInt32.toNat_toUInt16, UInt32.toNat_ofNat', UInt16.toNat_ofNat']
  omega

theorem getU16_toUInt16 (h : i + 2 ≤ p.length) :
    (do return (← getU16 p i).toUInt16 : Res UInt16) = .ok (UInt16.ofNat (leVal p i 2)) := by
  rw [getU16_eq h, Res.ok_bind, Res.pure_def, toUInt16_ofNat]

/-- The two halves of the extent length field. -/
theorem adLength_eq {v : Nat} (h : v < 2 ^ 32) :
    UInt32.ofNat v &&& 0x3fffffff = UInt32.ofNat (v % 2 ^ 30) ∧
      (UInt32.ofNat v >>> 30).toUInt8 = UInt8.ofNat (v / 2 ^ 30) := by
  constructor
  · apply UInt32.toNat_inj.mp
    have hand := Nat.and_two_pow_sub_one_eq_mod v 30
    rw [UInt32.toNat_and, UInt32.toNat_ofNat', UInt32.toNat_ofNat', Nat.mod_eq_of_lt h,
      Nat.mod_eq_of_lt (by omega)]
    exact hand
  · apply UInt8.toNat_inj.mp
    rw [UInt32.toNat_toUInt8, UInt32.toNat_shiftRight, UInt32.toNat_ofNat', Nat.mod_eq_of_lt h,
      UInt8.toNat_ofNat', Nat.shiftRight_eq_div_pow]
    rfl

theorem decodeAd_eq {lbaAt : Nat} (h : i + lbaAt + 4 ≤ p.length) (hi : i + 4 ≤ p.length) :
    decodeAd p i lbaAt (.ok partition) = .ok
      { lba := UInt32.ofNat (leVal p (i + lbaAt) 4)
        length := UInt32.ofNat (leVal p i 4 % 2 ^ 30)
        partition
        extentType := UInt8.ofNat (leVal p i 4 / 2 ^ 30) } := by
  obtain ⟨hlen, htype⟩ := adLength_eq (leVal_lt p i 4)
  simp only [decodeAd, getU32_eq h, getU32_eq hi, Res.ok_bind, Res.pure_def, hlen, htype]

theorem AdType.decode_eq (h : i + t.size ≤ p.length) :
    t.decode p i partition = .ok (adAt t p partition i) := by
  cases t with
  | short => exact decodeAd_eq (by simp [size] at h; omega) (by simp [size] at h; omega)
  | long =>
    simp only [size] at h
    unfold decode decodeLongAd
    rw [getU16_toUInt16 (by omega)]
    exact decodeAd_eq (by omega) (by omega)
  | extended =>
    simp only [size] at h
    unfold decode decodeExtendedAd
    rw [getU16_toUInt16 (by omega)]
    exact decodeAd_eq (by omega) (by omega)

theorem decodeLongAd_eq (h : i + 16 ≤ p.length) :
    decodeLongAd p i = .ok (adAt .long p 0 i) := AdType.decode_eq (t := .long) h

/-! ## A list of descriptors -/

theorem decodeFileAds_eq (hread : i + n * t.size ≤ p.length) (hcap : ad.length + n ≤ cap) :
    decodeFileAds p t partition cap n i ad = .ok (ad ++ adsAt t p partition n i) := by
  induction n generalizing i ad with
  | zero => simp [decodeFileAds, adsAt]
  | succ n ih =>
    rw [Nat.succ_mul] at hread
    rw [decodeFileAds, AdType.decode_eq (by omega), Res.ok_bind, storeAd, if_pos (by omega),
      Res.ok_bind, ih (by omega) (by simp; omega), adsAt, List.append_assoc, List.singleton_append]

theorem decodeFileAds_overrun (hread : i + n * t.size ≤ p.length) (hn : 0 < n)
    (hcap : cap < ad.length + n) :
    decodeFileAds p t partition cap n i ad = .error .outOfBounds := by
  induction n generalizing i ad with
  | zero => omega
  | succ n ih =>
    rw [Nat.succ_mul] at hread
    rw [decodeFileAds, AdType.decode_eq (by omega), Res.ok_bind, storeAd]
    by_cases hfull : ad.length < cap
    · rw [if_pos hfull, Res.ok_bind]
      exact ih (by omega) (by omega) (by simp; omega)
    · rw [if_neg hfull]
      rfl

/-! ## Allocation extents -/

/-- The room for descriptors, computed in 32 bits, is short of what is stored exactly if the sum
does not fit. -/
theorem extent_room {a n : Nat} (ha : a < 2 ^ 32) (hn : n < 2 ^ 32) :
    (UInt32.ofNat a + UInt32.ofNat n).toNat + 1 = if a + n < 2 ^ 32 then a + n + 1
      else a + n + 1 - 2 ^ 32 := by
  rw [UInt32.toNat_add, UInt32.toNat_ofNat', UInt32.toNat_ofNat', Nat.mod_eq_of_lt ha,
    Nat.mod_eq_of_lt hn]
  split <;> omega

/-- `decode_allocation_extent` on a buffer of the recorded size, or longer. -/
theorem decodeAllocationExtent_eq {fe : FileEntry} {size : Nat} (hp : 24 ≤ p.length)
    (hsize : size ≤ p.length) (hu : fe.u = .ads t ad) (had : ad.length < 2 ^ 32) :
    decodeAllocationExtent fe p size partition =
      if 24 ≤ size ∧ 24 + leVal p 20 4 ≤ size then
        if leVal p 20 4 / t.size < 1 then .ok (some fe)
        else if ad.length + leVal p 20 4 / t.size < 2 ^ 32 then
          .ok (some { fe with u := .ads t (ad ++ adsAt t p partition (leVal p 20 4 / t.size) 24) })
        else .error .outOfBounds
      else .ok none := by
  have hlt : leVal p 20 4 < 2 ^ 32 := leVal_lt p 20 4
  have hlAd : (UInt32.ofNat (leVal p 20 4)).toNat = leVal p 20 4 := by
    rw [UInt32.toNat_ofNat', Nat.mod_eq_of_lt hlt]
  have hmul := Nat.div_mul_le_self (leVal p 20 4) t.size
  have hle := Nat.div_le_self (leVal p 20 4) t.size
  rw [decodeAllocationExtent, getU32_eq (by omega), Res.ok_bind, hlAd]
  by_cases hfit : 24 ≤ size ∧ 24 + leVal p 20 4 ≤ size
  · rw [if_pos hfit, if_neg (by omega), hu]
    simp only
    by_cases hempty : leVal p 20 4 / t.size < 1
    · rw [if_pos hempty, if_pos hempty]
      rfl
    · rw [if_neg hempty, if_neg hempty, extent_room had (by omega)]
      by_cases hroom : ad.length + leVal p 20 4 / t.size < 2 ^ 32
      · rw [if_pos hroom, if_pos hroom, decodeFileAds_eq (by omega) (by omega)]
        rfl
      · rw [if_neg hroom, if_neg hroom, decodeFileAds_overrun (by omega) (by omega) (by omega)]
        rfl
  · rw [if_neg hfit, if_pos (by omega)]
    rfl

/-! ## File entries -/

/-- The union of a file entry whose ICB flags have the given low bits. -/
def contentAt (p : Bytes) (partition : UInt16) (pAd lAd : Nat) : Nat → Option FileContent
  | 0 => some (.ads .short (adsAt .short p partition (lAd / AdType.short.size) pAd))
  | 1 => some (.ads .long (adsAt .long p partition (lAd / AdType.long.size) pAd))
  | 2 => some (.ads .extended (adsAt .extended p partition (lAd / AdType.extended.size) pAd))
  | 3 => some (.data ((p.drop pAd).take lAd))
  | _ => none

/-- The file entry recorded in a block, with its descriptors from index `pAd` on. -/
def entryAt (p : Bytes) (partition : UInt16) (pAd lAd : Nat) : Option FileEntry :=
  if leVal p 20 2 = 4 then
    (contentAt p partition pAd lAd (leVal p 34 2 % 8)).map fun u =>
      { length := UInt64.ofNat (leVal p 56 8), fileType := UInt8.ofNat (leVal p 27 1), u }
  else none

theorem decodeIcbTag_eq (hp : i + 20 ≤ p.length) :
    decodeIcbTag p i = .ok
      { fileType := UInt8.ofNat (leVal p (i + 11) 1)
        strategyType := UInt16.ofNat (leVal p (i + 4) 2)
        flags := UInt16.ofNat (leVal p (i + 18) 2) } := by
  have hu8 : (UInt32.ofNat (leVal p (i + 11) 1)).toUInt8 = UInt8.ofNat (leVal p (i + 11) 1) := by
    apply UInt8.toNat_inj.mp
    simp only [UInt32.toNat_toUInt8, UInt32.toNat_ofNat', UInt8.toNat_ofNat']
    omega
  simp (disch := omega) only [decodeIcbTag, getU16_eq, getU8_eq, Res.ok_bind, Res.pure_def,
    toUInt16_ofNat, hu8]

theorem flags_low (v : Nat) (k : UInt16) :
    UInt16.ofNat v &&& 7 = k ↔ v % 8 = k.toNat := by
  have hand := Nat.and_two_pow_sub_one_eq_mod (v % 2 ^ 16) 3
  have hval : (UInt16.ofNat v &&& 7).toNat = v % 8 := by
    rw [UInt16.toNat_and, UInt16.toNat_ofNat']
    exact hand.trans (by omega)
  rw [← UInt16.toNat_inj, hval]

theorem decodeAdsEntry_eq {lAd pAd : UInt32} {fileType : UInt8} (hp : 64 ≤ p.length)
    (h : pAd.toNat + lAd.toNat ≤ p.length) :
    decodeAdsEntry p partition lAd pAd fileType t = .ok (some
      { length := UInt64.ofNat (leVal p 56 8)
        fileType
        u := .ads t (adsAt t p partition (lAd.toNat / t.size) pAd.toNat) }) := by
  have hmul := Nat.div_mul_le_self lAd.toNat t.size
  simp only [decodeAdsEntry, getU64_eq (show 56 + 8 ≤ p.length by omega), Res.ok_bind,
    decodeFileAds_eq (show pAd.toNat + lAd.toNat / t.size * t.size ≤ p.length by omega)
      (show ([] : List LongAd).length + lAd.toNat / t.size ≤ max (lAd.toNat / t.size) 1 by simp),
    List.nil_append, Res.pure_def]

theorem decodeFileEntryBody_eq {size : Nat} {lAd pAd : UInt32} (hp : 64 ≤ p.length)
    (hsize : size ≤ p.length) (hsum : pAd.toNat + lAd.toNat < 2 ^ 32) :
    decodeFileEntryBody p size partition lAd pAd = .ok
      (if pAd.toNat + lAd.toNat ≤ size then entryAt p partition pAd.toNat lAd.toNat else none) := by
  have hadd : (pAd + lAd).toNat = pAd.toNat + lAd.toNat := by
    rw [UInt32.toNat_add, Nat.mod_eq_of_lt hsum]
  rw [decodeFileEntryBody, hadd]
  by_cases hfit : pAd.toNat + lAd.toNat ≤ size
  · rw [if_neg (by omega), if_pos hfit, decodeIcbTag_eq (by omega), Res.ok_bind, entryAt]
    have hstrategy : UInt16.ofNat (leVal p (16 + 4) 2) = 4 ↔ leVal p 20 2 = 4 := by
      have hlt : leVal p 20 2 < 2 ^ 16 := leVal_lt p 20 2
      rw [← UInt16.toNat_inj, UInt16.toNat_ofNat', Nat.mod_eq_of_lt hlt]
      rfl
    by_cases h4 : leVal p 20 2 = 4
    · rw [if_neg (not_not_intro (hstrategy.mpr h4)), if_pos h4]
      simp only [flags_low _ 0, flags_low _ 1, flags_low _ 2, flags_low _ 3,
        decodeAdsEntry_eq hp (show _ ≤ p.length from hfit.trans hsize)]
      have hslice := slice_eq (p := p) (i := pAd.toNat) (n := lAd.toNat) (hfit.trans hsize)
      have hlt : leVal p 34 2 % 8 < 8 := Nat.mod_lt _ (by omega)
      generalize leVal p 34 2 % 8 = flags at hlt ⊢
      rcases flags with _ | _ | _ | _ | flags
      · rfl
      · rfl
      · rfl
      · simp [contentAt, hslice, getU64_eq (show 56 + 8 ≤ p.length by omega)]
      · simp [contentAt]
    · rw [if_pos (fun h => h4 (hstrategy.mp h)), if_neg h4]
      rfl
  · rw [if_pos (by omega), if_neg hfit]

theorem decodeEntryWith_eq {lEaAt lAdAt header size : Nat} (hp : 64 ≤ p.length)
    (hEa : lEaAt + 4 ≤ p.length) (hAd : lAdAt + 4 ≤ p.length) (hsize : size ≤ p.length)
    (hlt : size < 2 ^ 32) :
    decodeEntryWith lEaAt lAdAt header p size partition = .ok
      (if header + leVal p lEaAt 4 + leVal p lAdAt 4 ≤ size then
        entryAt p partition (header + leVal p lEaAt 4) (leVal p lAdAt 4) else none) := by
  have hEa32 : leVal p lEaAt 4 < 2 ^ 32 := leVal_lt p lEaAt 4
  have hAd32 : leVal p lAdAt 4 < 2 ^ 32 := leVal_lt p lAdAt 4
  have hlEa : (UInt32.ofNat (leVal p lEaAt 4)).toNat = leVal p lEaAt 4 := by
    rw [UInt32.toNat_ofNat', Nat.mod_eq_of_lt hEa32]
  have hlAd : (UInt32.ofNat (leVal p lAdAt 4)).toNat = leVal p lAdAt 4 := by
    rw [UInt32.toNat_ofNat', Nat.mod_eq_of_lt hAd32]
  rw [decodeEntryWith, getU32_eq hEa, Res.ok_bind, getU32_eq hAd, Res.ok_bind, hlEa, hlAd]
  by_cases hover : leVal p lEaAt 4 + leVal p lAdAt 4 + header ≥ 2 ^ 32
  · rw [if_pos hover, if_neg (by omega)]
    rfl
  · have hpAd : (UInt32.ofNat header + UInt32.ofNat (leVal p lEaAt 4)).toNat =
        header + leVal p lEaAt 4 := by
      rw [UInt32.toNat_add, hlEa, UInt32.toNat_ofNat']
      omega
    rw [if_neg hover, decodeFileEntryBody_eq hp hsize (by rw [hpAd, hlAd]; omega), hpAd, hlAd]

theorem decodeFileEntry_eq (hp : 2048 ≤ p.length) :
    decodeFileEntry p 2048 partition = .ok
      (if 176 + leVal p 168 4 + leVal p 172 4 ≤ 2048 then
        entryAt p partition (176 + leVal p 168 4) (leVal p 172 4) else none) :=
  decodeEntryWith_eq (by omega) (by omega) (by omega) (by omega) (by decide)

theorem decodeExtFileEntry_eq (hp : 2048 ≤ p.length) :
    decodeExtFileEntry p 2048 partition = .ok
      (if 216 + leVal p 208 4 + leVal p 212 4 ≤ 2048 then
        entryAt p partition (216 + leVal p 208 4) (leVal p 212 4) else none) :=
  decodeEntryWith_eq (by omega) (by omega) (by omega) (by omega) (by decide)

end

end UdfRead
