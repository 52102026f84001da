import UdfRead.File
import UdfRead.Lib.Extents

/-!
# UdfRead.FileLba

The walk of `_file_lba` is a lookup in the descriptors laid end to end (`fileLbaLoop_eq`): the
running block number never underflows, and a reported run stays inside one descriptor. So it is a
lookup in the flattened block map, and a reported run is the run of the map up to the end of the
descriptor (`fileLba_blockMap`).
-/

namespace UdfRead

open CModel Extents

/-- The slots of a descriptor. -/
def adSlots (ad : LongAd) : Nat := (adSize ad).toNat

/-- Where slot `k` of a descriptor lies, and how many slots of it are left. -/
def adTarget (start : UInt32) (ad : LongAd) (k : Nat) : UInt32 × UInt32 :=
  if ad.extentType ≠ LongAd.extentNormal then (0, 0)
  else if ad.lba = 0 then (0, 0)
  else (start + ad.lba + UInt32.ofNat k, adSize ad - UInt32.ofNat k)

theorem toNat_sub_of_le {a b : UInt32} (h : b.toNat ≤ a.toNat) :
    (a - b).toNat = a.toNat - b.toNat := UInt32.toNat_sub_of_le _ _ (UInt32.le_iff_toNat_le.mpr h)

theorem fileLbaLoop_eq (start : UInt32) (ads : List LongAd) (b : UInt32) :
    fileLbaLoop start ads b =
      match locate adSlots ads b.toNat with
      | none => (0, 0)
      | some (ad, k) => adTarget start ad k := by
  induction ads generalizing b with
  | nil => rfl
  | cons ad rest ih =>
    rw [fileLbaLoop, locate]
    by_cases h : b < adSize ad
    · have h' : b.toNat < adSlots ad := UInt32.lt_iff_toNat_lt.mp h
      simp [h, h', adTarget]
    · have h' : ¬ b.toNat < adSlots ad := fun hc => h (UInt32.lt_iff_toNat_lt.mpr hc)
      rw [if_neg h, if_neg h', ih, toNat_sub_of_le (by unfold adSlots at h'; omega)]
      rfl

section

variable {f : UdfFile} {b : UInt32}

theorem fileLba_eq (f : UdfFile) (b : UInt32) :
    fileLba f b =
      match locate adSlots f.ads b.toNat with
      | none => (0, 0)
      | some (ad, k) => adTarget f.part.p0.lba ad k := fileLbaLoop_eq _ _ _

/-- A mapped block lies in a recorded descriptor, which maps all its slots. -/
theorem fileLba_mapped (h : (fileLba f b).1 ≠ 0) :
    ∃ ad k, locate adSlots f.ads b.toNat = some (ad, k) ∧
      fileLba f b = adTarget f.part.p0.lba ad k ∧
      ∀ j, adTarget f.part.p0.lba ad j =
        (f.part.p0.lba + ad.lba + UInt32.ofNat j, adSize ad - UInt32.ofNat j) := by
  rw [fileLba_eq] at h ⊢
  cases hl : locate adSlots f.ads b.toNat with
  | none => simp [hl] at h
  | some r =>
    obtain ⟨ad, k⟩ := r
    simp only [hl] at h
    refine ⟨ad, k, rfl, rfl, fun j => ?_⟩
    unfold adTarget at h ⊢
    split at h
    · simp at h
    · split at h
      · simp at h
      · rw [if_neg ‹_›, if_neg ‹_›]

theorem adSize_sub_toNat {ad : LongAd} {k : Nat} (h : k < adSlots ad) :
    (adSize ad - UInt32.ofNat k).toNat = adSlots ad - k := by
  have hs : adSlots ad < 2 ^ 32 := (adSize ad).toNat_lt
  have hk : (UInt32.ofNat k).toNat = k := by
    rw [UInt32.toNat_ofNat', Nat.mod_eq_of_lt (by omega)]
  rw [toNat_sub_of_le (by rw [hk]; exact le_of_lt h), hk]
  rfl

/-- The run a lookup reports is a run of the map: `j` blocks on, the address is `j` higher and `j`
blocks fewer are left. -/
theorem fileLba_run (h : (fileLba f b).1 ≠ 0) {j : Nat} (hj : j < (fileLba f b).2.toNat)
    (hw : b.toNat + j < 2 ^ 32) :
    fileLba f (b + UInt32.ofNat j) =
      ((fileLba f b).1 + UInt32.ofNat j, (fileLba f b).2 - UInt32.ofNat j) := by
  obtain ⟨ad, k, hl, hb, ht⟩ := fileLba_mapped h
  have hk := locate_lt hl
  have hbj : (b + UInt32.ofNat j).toNat = b.toNat + j := by
    rw [UInt32.toNat_add, UInt32.toNat_ofNat']; omega
  rw [hb, ht, adSize_sub_toNat hk] at hj
  rw [fileLba_eq f (b + UInt32.ofNat j), hbj, locate_run hl (j := j) (by omega)]
  simp only [hb, ht, UInt32.ofNat_add]
  exact Prod.ext (UInt32.add_assoc _ _ _).symm (by grind)

/-- A mapped block starts a run of one block or more. -/
theorem fileLba_pos (h : (fileLba f b).1 ≠ 0) : 0 < (fileLba f b).2.toNat := by
  obtain ⟨ad, k, hl, hb, ht⟩ := fileLba_mapped h
  have hk := locate_lt hl
  rw [hb, ht, adSize_sub_toNat hk]
  omega

/-- The slots from a mapped block to the end of its run are all covered. -/
theorem fileLba_covered (h : (fileLba f b).1 ≠ 0) :
    b.toNat + (fileLba f b).2.toNat ≤ total adSlots f.ads := by
  obtain ⟨ad, k, hl, hb, ht⟩ := fileLba_mapped h
  have hk := locate_lt hl
  have hlast := locate_run hl (j := adSlots ad - k - 1) (by omega)
  have hlt : ¬ total adSlots f.ads ≤ b.toNat + (adSlots ad - k - 1) := by
    rw [← locate_none, hlast]; simp
  rw [hb, ht, adSize_sub_toNat hk]
  omega

end

/-! ## The flattened map -/

/-- The blocks of a descriptor: ceil(length / 2048). -/
def adBlocks (ad : LongAd) : Nat := (ad.length.toNat + 2047) / 2048

/-- What slot `k` of a descriptor holds. -/
def adSlot (start : UInt32) (ad : LongAd) (k : Nat) : UInt32 :=
  if ad.extentType = LongAd.extentNormal ∧ ad.lba ≠ 0 then start + ad.lba + UInt32.ofNat k else 0

/-- The slots of all descriptors of the file, one behind the other. -/
def blockMap (f : UdfFile) : List UInt32 := flatten adBlocks (adSlot f.part.p0.lba) f.ads

/-- The states the loop of `_file_lba` passes through: the descriptors left, and the running block
number. -/
inductive Walk (ads : List LongAd) (b : UInt32) : List LongAd → UInt32 → Prop where
  | start : Walk ads b ads b
  | skip {ad : LongAd} {rest : List LongAd} {c : UInt32} : Walk ads b (ad :: rest) c →
      ¬ c < adSize ad → Walk ads b rest (c - adSize ad)

section

variable {f : UdfFile} {b c : UInt32} {ads rest : List LongAd}

/-- The walk is the loop's. -/
theorem Walk.fileLbaLoop_eq (h : Walk ads b rest c) (start : UInt32) :
    fileLbaLoop start ads b = fileLbaLoop start rest c := by
  induction h with
  | start => rfl
  | skip _ hc ih => rw [ih, fileLbaLoop, if_neg hc]

/-- Each skip takes the slots of one descriptor off the running block number, which has them. -/
theorem Walk.no_underflow (h : Walk ads b rest c) :
    ∃ before, ads = before ++ rest ∧ total adSlots before + c.toNat = b.toNat := by
  induction h with
  | start => exact ⟨[], rfl, by simp⟩
  | @skip ad rest c _ hc ih =>
    obtain ⟨before, hads, hsum⟩ := ih
    have hle : (adSize ad).toNat ≤ c.toNat := by
      by_contra hlt
      exact hc (UInt32.lt_iff_toNat_lt.mpr (by omega))
    have hslots : total adSlots (before ++ [ad]) = total adSlots before + (adSize ad).toNat := by
      simp [total, adSlots]
    refine ⟨before ++ [ad], by simp [hads], ?_⟩
    rw [toNat_sub_of_le hle, hslots]
    omega

/-- With a length of 30 bits, the rounding up does not overflow. -/
theorem adSlots_eq {ad : LongAd} (h : ad.length.toNat < 2 ^ 30) : adSlots ad = adBlocks ad := by
  have hsum : (ad.length + 2048 - 1).toNat = ad.length.toNat + 2047 := by
    rw [toNat_sub_of_le (by rw [UInt32.toNat_add]; simp; omega), UInt32.toNat_add]
    simp
    omega
  rw [adSlots, adSize, UInt32.toNat_div, hsum]
  rfl

theorem adTarget_fst (start : UInt32) (ad : LongAd) (k : Nat) :
    (adTarget start ad k).1 = adSlot start ad k := by
  unfold adTarget adSlot
  by_cases hnormal : ad.extentType = LongAd.extentNormal
  · by_cases hlba : ad.lba = 0
    · simp [hlba]
    · simp [hnormal, hlba]
  · simp [hnormal]

theorem blockMap_getElem? (hads : ∀ ad ∈ f.ads, ad.length.toNat < 2 ^ 30) (n : Nat) :
    (blockMap f)[n]? = (locate adSlots f.ads n).map fun r => adSlot f.part.p0.lba r.1 r.2 := by
  have hsize : blockMap f = flatten adSlots (adSlot f.part.p0.lba) f.ads :=
    flatten_congr _ _ fun ad had => (adSlots_eq (hads ad had)).symm
  rw [hsize, getElem?_flatten]

theorem fileLba_slot (hads : ∀ ad ∈ f.ads, ad.length.toNat < 2 ^ 30) (b : UInt32) :
    (fileLba f b).1 = (blockMap f).getD b.toNat 0 := by
  rw [List.getD_eq_getElem?_getD, blockMap_getElem? hads, fileLba_eq]
  cases locate adSlots f.ads b.toNat with
  | none => rfl
  | some r => exact adTarget_fst _ _ _

/-- The run a lookup reports, in the map: its length is what is left of the descriptor, and its
slots count up from the address. -/
theorem fileLba_run_blockMap (hads : ∀ ad ∈ f.ads, ad.length.toNat < 2 ^ 30)
    (h : (fileLba f b).1 ≠ 0) :
    (∃ before ad after k, f.ads = before ++ ad :: after ∧ b.toNat = total adBlocks before + k ∧
      k < adBlocks ad ∧ (fileLba f b).2.toNat = adBlocks ad - k) ∧
    ∀ k, k < (fileLba f b).2.toNat →
      (blockMap f)[b.toNat + k]? = some ((fileLba f b).1 + UInt32.ofNat k) := by
  obtain ⟨ad, k, hl, hb, ht⟩ := fileLba_mapped h
  have hk := locate_lt hl
  obtain ⟨before, after, hsplit, hn⟩ := locate_split hl
  have hmem : ∀ e ∈ before ++ [ad], e ∈ f.ads := by
    intro e he
    rw [hsplit]
    simp at he ⊢
    tauto
  have hblocks : adSlots ad = adBlocks ad := adSlots_eq (hads ad (hmem ad (by simp)))
  have htotal : total adSlots before = total adBlocks before := by
    unfold total
    rw [List.map_congr_left fun e he => adSlots_eq (hads e (hmem e (by simp [he])))]
  have hlen : (fileLba f b).2.toNat = adBlocks ad - k := by
    rw [hb, ht, adSize_sub_toNat hk, hblocks]
  refine ⟨⟨before, ad, after, k, hsplit, by omega, by omega, hlen⟩, fun j hj => ?_⟩
  have hslot : adSlot f.part.p0.lba ad (k + j) = f.part.p0.lba + ad.lba + UInt32.ofNat (k + j) := by
    rw [← adTarget_fst, ht]
  rw [blockMap_getElem? hads, locate_run hl (j := j) (by omega), hb, ht, Option.map_some]
  simp only [hslot, UInt32.ofNat_add, UInt32.add_assoc]

end

/-- `_file_lba` is the lookup in the flattened map, its running block number never underflows, and a
run it reports is the run of the map up to the end of the descriptor, each block of which is looked
up at the same address. -/
theorem fileLba_blockMap (f : UdfFile) (b : UInt32)
    (hads : ∀ ad ∈ f.ads, ad.length.toNat < 2 ^ 30) :
    (fileLba f b).1 = (blockMap f).getD b.toNat 0 ∧
    udfreadFileLba f b = (blockMap f).getD b.toNat 0 ∧
    (∀ rest c, Walk f.ads b rest c →
      fileLba f b = fileLbaLoop f.part.p0.lba rest c ∧
      ∃ before, f.ads = before ++ rest ∧ total adBlocks before + c.toNat = b.toNat) ∧
    ((fileLba f b).1 ≠ 0 →
      1 ≤ (fileLba f b).2.toNat ∧
      (∃ before ad after k, f.ads = before ++ ad :: after ∧ b.toNat = total adBlocks before + k ∧
        k < adBlocks ad ∧ (fileLba f b).2.toNat = adBlocks ad - k) ∧
      ∀ k, k < (fileLba f b).2.toNat →
        (blockMap f)[b.toNat + k]? = some ((fileLba f b).1 + UInt32.ofNat k) ∧
        (b.toNat + k < 2 ^ 32 →
          (fileLba f (b + UInt32.ofNat k)).1 = (fileLba f b).1 + UInt32.ofNat k)) := by
  refine ⟨fileLba_slot hads b, ?_, fun rest c hwalk => ⟨hwalk.fileLbaLoop_eq _, ?_⟩, fun h => ?_⟩
  · unfold udfreadFileLba
    split
    · -- an inline file has no descriptors
      rename_i hinline
      have hnone : f.ads = [] := by
        unfold UdfFile.contentInline at hinline
        unfold UdfFile.ads
        split at hinline
        · cases hinline
        · rfl
      rw [blockMap, hnone]
      rfl
    · exact fileLba_slot hads b
  · obtain ⟨before, hsplit, hsum⟩ := hwalk.no_underflow
    have htotal : total adSlots before = total adBlocks before := by
      unfold total
      rw [List.map_congr_left fun e he => adSlots_eq (hads e (by simp [hsplit, he]))]
    exact ⟨before, hsplit, by omega⟩
  · obtain ⟨hdesc, hrun⟩ := fileLba_run_blockMap hads h
    exact ⟨fileLba_pos h, hdesc, fun k hk => ⟨hrun k hk, fun hw => by rw [fileLba_run h hk hw]⟩⟩

/-- A file of three blocks at address 300, the last one partial, behind an empty descriptor. -/
def twoDescriptors : UdfFile :=
  .fresh .zero
    { length := 5000, fileType := 5,
      u := .ads .long [{ lba := 7, length := 0, extentType := 0, partition := 0 },
        { lba := 300, length := 5000, extentType := 0, partition := 0 }] }

theorem fileLba_blockMap_second :
    fileLba twoDescriptors 1 = (301, 2) ∧ (blockMap twoDescriptors).getD 1 0 = 301 ∧
      (blockMap twoDescriptors)[2]? = some 302 := by
  have hrun : fileLba twoDescriptors 1 = (301, 2) := by decide
  obtain ⟨hslot, -, -, hmapped⟩ := fileLba_blockMap twoDescriptors 1 (by decide)
  rw [hrun] at hslot hmapped
  exact ⟨hrun, hslot.symm, ((hmapped (by decide)).2.2 1 (by decide)).1⟩

end UdfRead
