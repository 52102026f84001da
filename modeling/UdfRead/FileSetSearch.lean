import UdfRead.Lib.Scan
import UdfRead.MinimalVolume
import UdfRead.Reads

/-!
# UdfRead.FileSetSearch

The search for the File Set Descriptor. `udf_find_root_dir` is a scan of the logical blocks up to a
last one, which the code computes in 32 bits: it is right inside the number range
(`udfFindRootDir_iff`), and goes wrong for an empty area and at the largest block number. Of the medium
it reads copies of these logical blocks only.
-/

namespace UdfRead

open CModel

section

variable {σ : Type} (I : BlockInput σ) (part : UdfPartitions) (fsdLoc : LongAd)

/-! ## The area and its search -/

/-- The number of blocks of the area. -/
def areaBlocks : Nat := (fsdLoc.length.toNat + 2047) / 2048

/-- The logical blocks `lba .. lba + n - 1`, as far as there are such block numbers. -/
def fileSetArea : List UInt32 :=
  numbersFrom (min (areaBlocks fsdLoc) (2 ^ 32 - fsdLoc.lba.toNat)) fsdLoc.lba

/-- One logical block: `some (some buf)` for a File Set Descriptor, `some none` for a Terminating
Descriptor. -/
def visitFileSet (lba : UInt32) : Proc σ (Option (Option Bytes)) := do
  match ← readMetadataBlocks I part { fsdLoc with lba, length := 2048 } with
  | none => return none
  | some (tag, buf) =>
    if tag = .fileSetDescriptor then return some (some buf)
    if tag = .terminatingDescriptor then return some none
    return none

/-- `fsd_loc->lba + (fsd_loc->length - 1) / UDF_BLOCK_SIZE`. -/
def lastBlock : UInt32 := fsdLoc.lba + (fsdLoc.length - 1) / 2048

/-- The logical blocks that the search asks for, one after the other. -/
def Asks (s : σ) (xs : List UInt32) : Prop :=
  ∃ r s', Scan (visitFileSet I part fsdLoc) (lastBlock fsdLoc) fsdLoc.lba s xs r s'

/-- A File Set Descriptor with this root directory is the first descriptor of its kind in the area,
and no Terminating Descriptor comes before it. -/
def FirstFileSet (s : σ) (icb : LongAd) : Prop :=
  ∃ buf s', scanList (visitFileSet I part fsdLoc) (fileSetArea fsdLoc) s = .ok (some (some buf), s') ∧
    decodeFileSetDescriptor buf = .ok icb

/-- The search ends, reads blocks of the area only (none when the partition is not mapped), and
finds the first File Set Descriptor of the area. -/
def SearchesArea (s : σ) : Prop :=
  ∃ fuel root s' xs, udfFindRootDir I fuel part fsdLoc s = .ok (root, s') ∧
    Asks I part fsdLoc s xs ∧
    (partitionOf part fsdLoc.partition ≠ none → ∀ x ∈ xs, x ∈ fileSetArea fsdLoc) ∧
    ∀ icb, root = some icb ↔ FirstFileSet I part fsdLoc s icb

/-- The numbers of the area and of the last block stay in 32 bits, or that makes no difference. -/
def AreaInRange (s : σ) : Prop :=
  if fsdLoc.length = 0 then
    -- the last block is number `lba + 2097151`
    2 ^ 32 ≤ fsdLoc.lba.toNat + 2097151 ∨
      partitionOf part fsdLoc.partition = none ∧ fsdLoc.lba.toNat + 2097151 ≠ 2 ^ 32 - 1
  else
    fsdLoc.lba.toNat + areaBlocks fsdLoc < 2 ^ 32 ∨
      (fsdLoc.lba.toNat + areaBlocks fsdLoc = 2 ^ 32 ∧
        ∃ d s', scanList (visitFileSet I part fsdLoc) (fileSetArea fsdLoc) s = .ok (some d, s')) ∨
      (2 ^ 32 < fsdLoc.lba.toNat + areaBlocks fsdLoc ∧ ∀ icb, ¬ FirstFileSet I part fsdLoc s icb)

variable {I part fsdLoc} {s s' : σ} {xs : List UInt32} {r : Option (Option Bytes)}

/-! ## The code as a scan -/

theorem visitFileSet_returns (I : BlockInput σ) (part : UdfPartitions) (fsdLoc : LongAd)
    (lba : UInt32) :
    Proc.Returns (visitFileSet I part fsdLoc lba) fun r =>
      ∀ buf, r = some (some buf) → 2048 ≤ buf.length := by
  refine (readMetadataBlocks_returns I part _).bind fun v hv => ?_
  rcases v with _ | ⟨tag, buf⟩
  · exact Proc.returns_pure fun _ h => by cases h
  · by_cases hfsd : tag = .fileSetDescriptor
    · simp only [hfsd, if_true]
      refine Proc.returns_pure fun buf' h => ?_
      cases h
      rw [hv tag buf rfl]
      exact Nat.le_add_right _ _
    · by_cases hterm : tag = .terminatingDescriptor
      · simp only [hterm, if_true]
        exact Proc.returns_pure fun _ h => by cases h
      · simp only [hfsd, hterm, if_false]
        exact Proc.returns_pure fun _ h => by cases h

theorem visitFileSet_unmapped (h : partitionOf part fsdLoc.partition = none) (lba : UInt32) (s : σ) :
    visitFileSet I part fsdLoc lba s = .ok (none, s) := by
  have hread : readMetadataBlocks I part { fsdLoc with lba, length := 2048 } s = .ok (none, s) := by
    rw [readMetadataBlocks]
    simp only [h]
    rfl
  rw [visitFileSet, Proc.bind_of_ok hread]
  rfl

theorem findRootDirLoop_eq (last : UInt32) (fuel : Nat) (lba : UInt32) :
    findRootDirLoop I part fsdLoc last fuel lba = (do
      return (← scanTo (visitFileSet I part fsdLoc) last fuel lba).join) := by
  induction fuel generalizing lba with
  | zero => rfl
  | succ fuel ih =>
    funext s
    rw [findRootDirLoop, scanTo]
    by_cases hlba : lba ≤ last
    · rw [if_neg (not_not_intro hlba), if_neg (not_not_intro hlba), visitFileSet]
      simp only [bind_assoc]
      cases hread : readMetadataBlocks I part { fsdLoc with lba, length := 2048 } s with
      | error t => rw [Proc.bind_of_error hread, Proc.bind_of_error hread]
      | ok v =>
        obtain ⟨v, s'⟩ := v
        rw [Proc.bind_of_ok hread, Proc.bind_of_ok hread]
        rcases v with _ | ⟨tag, buf⟩
        · simp only [pure_bind, ih]
        · by_cases hfsd : tag = .fileSetDescriptor
          · simp [hfsd]
          · by_cases hterm : tag = .terminatingDescriptor
            · simp [hterm]
            · simp [hfsd, hterm, ih]
    · rw [if_pos hlba, if_pos hlba]
      rfl

/-- What becomes of the result of the scan. -/
def rootOf (r : Option (Option Bytes)) : Proc σ (Option LongAd) := do
  match r.join with
  | none => return none
  | some buf => return some (← Proc.ofRes (decodeFileSetDescriptor buf))

theorem udfFindRootDir_eq (fuel : Nat) :
    udfFindRootDir I fuel part fsdLoc = (do
      rootOf (← scanTo (visitFileSet I part fsdLoc) (lastBlock fsdLoc) fuel fsdLoc.lba)) := by
  rw [udfFindRootDir, show fsdLoc.lba + (fsdLoc.length - 1) / 2048 = lastBlock fsdLoc from rfl,
    findRootDirLoop_eq, bind_assoc]
  simp only [pure_bind]
  rfl

theorem rootOf_some {root : Option LongAd} (h : rootOf r s = .ok (root, s')) (icb : LongAd) :
    root = some icb ↔ ∃ buf, r = some (some buf) ∧ decodeFileSetDescriptor buf = .ok icb := by
  rcases r with _ | _ | buf
  · cases h
    simp
  · cases h
    simp
  · obtain ⟨icb', t, hdec, hend⟩ := Proc.bind_eq_ok.mp h
    obtain ⟨hdec', rfl⟩ := Proc.ofRes_eq_ok.mp hdec
    cases hend
    simp [hdec']

/-- A scan that ends is a search that ends. -/
theorem findRootDir_of_scan
    (h : Scan (visitFileSet I part fsdLoc) (lastBlock fsdLoc) fsdLoc.lba s xs r s') :
    ∃ fuel root s'', udfFindRootDir I fuel part fsdLoc s = .ok (root, s'') := by
  refine ⟨xs.length + 1, ?_⟩
  rw [udfFindRootDir_eq, Proc.bind_of_ok (scanTo_of_scan h)]
  rcases r with _ | _ | buf
  · exact ⟨none, s', rfl⟩
  · exact ⟨none, s', rfl⟩
  · have hbuf : 2048 ≤ buf.length := by
      obtain ⟨y, t, hv⟩ := h.visited rfl
      obtain ⟨v, t', hv', hlen⟩ := visitFileSet_returns I part fsdLoc y t
      rw [hv] at hv'
      cases hv'
      exact hlen buf rfl
    have hdec : decodeFileSetDescriptor buf = _ :=
      decodeLongAd_eq (show 400 + 16 ≤ buf.length by omega)
    refine ⟨some (adAt .long buf 0 400), s', ?_⟩
    rw [rootOf]
    simp only [Option.join_some, Proc.ofRes_bind hdec]
    rfl

/-- A search of the area is a scan that visits blocks of the area only and ends with what is found
first in it. -/
theorem searchesArea_iff : SearchesArea I part fsdLoc s ↔ ∃ xs r s',
    Scan (visitFileSet I part fsdLoc) (lastBlock fsdLoc) fsdLoc.lba s xs r s' ∧
      (partitionOf part fsdLoc.partition ≠ none → ∀ x ∈ xs, x ∈ fileSetArea fsdLoc) ∧
      ∀ icb, (∃ buf, r = some (some buf) ∧ decodeFileSetDescriptor buf = .ok icb) ↔
        FirstFileSet I part fsdLoc s icb := by
  constructor
  · rintro ⟨fuel, root, s', xs, hrun, ⟨r, t, hscan⟩, hin, hroot⟩
    rw [udfFindRootDir_eq] at hrun
    obtain ⟨r', t', hscanTo, hend⟩ := Proc.bind_eq_ok.mp hrun
    obtain ⟨rfl, rfl⟩ := scanTo_eq hscan hscanTo
    exact ⟨xs, r', t', hscan, hin, fun icb => (rootOf_some hend icb).symm.trans (hroot icb)⟩
  · rintro ⟨xs, r, s', hscan, hin, hroot⟩
    obtain ⟨fuel, root, s'', hrun⟩ := findRootDir_of_scan hscan
    have hrun' := hrun
    rw [udfFindRootDir_eq] at hrun'
    obtain ⟨r', t', hscanTo, hend⟩ := Proc.bind_eq_ok.mp hrun'
    obtain ⟨rfl, rfl⟩ := scanTo_eq hscan hscanTo
    exact ⟨fuel, root, s'', xs, hrun, ⟨r', t', hscan⟩, hin,
      fun icb => (rootOf_some hend icb).trans (hroot icb)⟩

/-! ## The bound of the loop -/

theorem areaBlocks_le (fsdLoc : LongAd) : areaBlocks fsdLoc ≤ 2097152 := by
  have := fsdLoc.length.toNat_lt
  unfold areaBlocks
  omega

theorem lastBlock_empty (h : fsdLoc.length = 0) :
    (lastBlock fsdLoc).toNat = (fsdLoc.lba.toNat + 2097151) % 2 ^ 32 := by
  rw [lastBlock, h, UInt32.toNat_add]
  rfl

theorem lastBlock_area (h : fsdLoc.length ≠ 0) : 1 ≤ areaBlocks fsdLoc ∧
    (lastBlock fsdLoc).toNat = (fsdLoc.lba.toNat + (areaBlocks fsdLoc - 1)) % 2 ^ 32 := by
  have hpos : 1 ≤ fsdLoc.length.toNat := by
    by_contra hc
    exact h (UInt32.toNat_inj.mp (by simp; omega))
  have hsub : (fsdLoc.length - 1).toNat = fsdLoc.length.toNat - 1 :=
    UInt32.toNat_sub_of_le _ _ (UInt32.le_iff_toNat_le.mpr hpos)
  have hdiv : ((fsdLoc.length - 1) / 2048).toNat = areaBlocks fsdLoc - 1 := by
    rw [UInt32.toNat_div, hsub, areaBlocks, show (2048 : UInt32).toNat = 2048 from rfl]
    omega
  refine ⟨?_, ?_⟩
  · unfold areaBlocks
    omega
  · rw [lastBlock, UInt32.toNat_add, hdiv]

theorem fileSetArea_empty (h : fsdLoc.length = 0) : fileSetArea fsdLoc = [] := by
  simp [fileSetArea, areaBlocks, h, numbersFrom]

theorem fileSetArea_eq (h : fsdLoc.lba.toNat + areaBlocks fsdLoc ≤ 2 ^ 32) :
    fileSetArea fsdLoc = numbersFrom (areaBlocks fsdLoc) fsdLoc.lba := by
  rw [fileSetArea, Nat.min_eq_left (by omega)]

/-! ## The search of the area -/

theorem firstFileSet_iff
    (h : scanList (visitFileSet I part fsdLoc) (fileSetArea fsdLoc) s = .ok (r, s')) (icb : LongAd) :
    (∃ buf, r = some (some buf) ∧ decodeFileSetDescriptor buf = .ok icb) ↔
      FirstFileSet I part fsdLoc s icb := by
  constructor
  · rintro ⟨buf, rfl, hdec⟩
    exact ⟨buf, s', h, hdec⟩
  · rintro ⟨buf, s'', h', hdec⟩
    rw [h] at h'
    cases h'
    exact ⟨buf, rfl, hdec⟩

theorem area_returns (I : BlockInput σ) (part : UdfPartitions) (fsdLoc : LongAd) (s : σ) :
    ∃ r s', scanList (visitFileSet I part fsdLoc) (fileSetArea fsdLoc) s = .ok (r, s') := by
  obtain ⟨r, s', h, -⟩ := scanList_returns (fileSetArea fsdLoc)
    (fun x => (visitFileSet_returns I part fsdLoc x).mono
      fun _ _ => trivial) trivial s
  exact ⟨r, s', h⟩

/-- The loop visits its first block when that is in range. -/
theorem first_visited
    (h : Scan (visitFileSet I part fsdLoc) (lastBlock fsdLoc) fsdLoc.lba s xs r s')
    (hle : fsdLoc.lba ≤ lastBlock fsdLoc) : fsdLoc.lba ∈ xs := by
  cases h with
  | stop hnot => exact absurd hle hnot
  | found => simp
  | next => simp

/-- A loop up to the largest number does not end when no visit has a result. -/
theorem unmapped_endless (hpart : partitionOf part fsdLoc.partition = none) {last x : UInt32}
    (hlast : last.toNat = 2 ^ 32 - 1) : ¬ Scan (visitFileSet I part fsdLoc) last x s xs r s' := by
  intro h
  induction h with
  | stop hx =>
    refine hx (UInt32.le_iff_toNat_le.mpr ?_)
    have := UInt32.toNat_lt ‹UInt32›
    omega
  | found _ hv =>
    rw [visitFileSet_unmapped hpart] at hv
    cases hv
  | next _ _ _ ih => exact ih

theorem unmapped_list (hpart : partitionOf part fsdLoc.partition = none) (xs : List UInt32) (s : σ) :
    scanList (visitFileSet I part fsdLoc) xs s = .ok (none, s) := by
  induction xs with
  | nil => rfl
  | cons x xs ih =>
    rw [scanList, Proc.bind_of_ok (visitFileSet_unmapped hpart x s)]
    exact ih

/-- A loop over a range of numbers in front of the largest one ends behind the range. -/
theorem scan_exhausted {n : Nat} (hn : fsdLoc.lba.toNat + n = (lastBlock fsdLoc).toNat + 1)
    (hmax : (lastBlock fsdLoc).toNat + 1 < 2 ^ 32)
    (h : scanList (visitFileSet I part fsdLoc) (numbersFrom n fsdLoc.lba) s = .ok (none, s')) :
    Scan (visitFileSet I part fsdLoc) (lastBlock fsdLoc) fsdLoc.lba s (numbersFrom n fsdLoc.lba)
      none s' := by
  refine (scan_behind hn.le h).mpr ⟨[], by simp, .stop fun hle => ?_⟩
  have hle' := UInt32.le_iff_toNat_le.mp hle
  rw [UInt32.toNat_add, UInt32.toNat_ofNat', Nat.mod_eq_of_lt (show n < 2 ^ 32 by omega),
    Nat.mod_eq_of_lt (by omega)] at hle'
  omega

/-- A loop that is not entered finds nothing. -/
theorem searchesArea_stop (h : ¬ fsdLoc.lba ≤ lastBlock fsdLoc) :
    SearchesArea I part fsdLoc s ↔ ∀ icb, ¬ FirstFileSet I part fsdLoc s icb := by
  rw [searchesArea_iff]
  constructor
  · rintro ⟨xs, r, s', hscan, -, hroot⟩ icb hfirst
    obtain ⟨-, rfl, -⟩ := hscan.unique (.stop h)
    obtain ⟨buf, hr, -⟩ := (hroot icb).mpr hfirst
    cases hr
  · intro hnone
    refine ⟨[], none, s, .stop h, fun _ _ hx => (List.not_mem_nil hx).elim, fun icb => ?_⟩
    exact ⟨fun ⟨_, hr, _⟩ => (nomatch hr), fun hfirst => (hnone icb hfirst).elim⟩

theorem firstFileSet_empty (h : fsdLoc.length = 0) (icb : LongAd) :
    ¬ FirstFileSet I part fsdLoc s icb := by
  rintro ⟨buf, s', hscan, -⟩
  rw [fileSetArea_empty h] at hscan
  cases hscan

/-- With an empty area the loop runs over 2097152 blocks, unless their numbers wrap around. -/
theorem searchesArea_empty (h : fsdLoc.length = 0) : SearchesArea I part fsdLoc s ↔
    2 ^ 32 ≤ fsdLoc.lba.toNat + 2097151 ∨
      partitionOf part fsdLoc.partition = none ∧ fsdLoc.lba.toNat + 2097151 ≠ 2 ^ 32 - 1 := by
  have hlba := fsdLoc.lba.toNat_lt
  have hlast := lastBlock_empty h
  by_cases hwrap : 2 ^ 32 ≤ fsdLoc.lba.toNat + 2097151
  · have hstop : ¬ fsdLoc.lba ≤ lastBlock fsdLoc := by
      rw [UInt32.le_iff_toNat_le]
      omega
    rw [searchesArea_stop hstop]
    exact iff_of_true (fun icb => firstFileSet_empty h icb) (.inl hwrap)
  · rw [Nat.mod_eq_of_lt (by omega)] at hlast
    have hle : fsdLoc.lba ≤ lastBlock fsdLoc := UInt32.le_iff_toNat_le.mpr (by omega)
    rw [searchesArea_iff]
    constructor
    · rintro ⟨xs, r, s', hscan, hin, -⟩
      refine .inr ⟨?_, fun hmax => ?_⟩
      · by_contra hpart
        have hmem := hin hpart _ (first_visited hscan hle)
        rw [fileSetArea_empty h] at hmem
        exact List.not_mem_nil hmem
      · by_cases hpart : partitionOf part fsdLoc.partition = none
        · exact unmapped_endless hpart (by omega) hscan
        · have hmem := hin hpart _ (first_visited hscan hle)
          rw [fileSetArea_empty h] at hmem
          exact List.not_mem_nil hmem
    · rintro (hwrap' | ⟨hpart, hmax⟩)
      · exact absurd hwrap' hwrap
      · refine ⟨_, none, s, scan_exhausted (n := 2097152) (by omega) (by omega)
          (unmapped_list hpart _ s), fun hmapped => absurd hpart hmapped, fun icb => ?_⟩
        exact ⟨fun ⟨_, hr, _⟩ => (nomatch hr), fun hfirst => (firstFileSet_empty h icb hfirst).elim⟩

/-- A search whose area holds a descriptor that ends it. -/
theorem searchesArea_found (h : fsdLoc.length ≠ 0)
    (hrange : fsdLoc.lba.toNat + areaBlocks fsdLoc ≤ 2 ^ 32) {d : Option Bytes}
    (hscan : scanList (visitFileSet I part fsdLoc) (fileSetArea fsdLoc) s = .ok (some d, s')) :
    SearchesArea I part fsdLoc s := by
  obtain ⟨hpos, hlast⟩ := lastBlock_area h
  rw [Nat.mod_eq_of_lt (by omega)] at hlast
  have hfirst := firstFileSet_iff hscan
  rw [fileSetArea_eq hrange] at hscan
  have hle : fsdLoc.lba.toNat + areaBlocks fsdLoc ≤ (lastBlock fsdLoc).toNat + 1 := by omega
  obtain ⟨xs, hxs, hin⟩ := scan_found hle hscan
  refine searchesArea_iff.mpr ⟨xs, some d, s', hxs, fun _ x hx => ?_, hfirst⟩
  rw [fileSetArea_eq hrange]
  exact hin x hx

theorem searchesArea_inRange (h : fsdLoc.length ≠ 0)
    (hrange : fsdLoc.lba.toNat + areaBlocks fsdLoc < 2 ^ 32) : SearchesArea I part fsdLoc s := by
  obtain ⟨r, s', hscan⟩ := area_returns I part fsdLoc s
  cases r with
  | some d => exact searchesArea_found h hrange.le hscan
  | none =>
    obtain ⟨hpos, hlast⟩ := lastBlock_area h
    rw [Nat.mod_eq_of_lt (by omega)] at hlast
    have hfirst := firstFileSet_iff hscan
    have harea := fileSetArea_eq hrange.le
    rw [harea] at hscan
    refine searchesArea_iff.mpr ⟨_, none, s', scan_exhausted (by omega) (by omega) hscan,
      fun _ x hx => ?_, hfirst⟩
    rwa [harea]

/-- Behind an area up to the largest number the loop goes on with block 0. -/
theorem searchesArea_edge (h : fsdLoc.length ≠ 0)
    (hrange : fsdLoc.lba.toNat + areaBlocks fsdLoc = 2 ^ 32) : SearchesArea I part fsdLoc s ↔
      ∃ d s', scanList (visitFileSet I part fsdLoc) (fileSetArea fsdLoc) s = .ok (some d, s') := by
  refine ⟨fun hsearch => ?_, fun ⟨d, s', hscan⟩ => searchesArea_found h hrange.le hscan⟩
  obtain ⟨r, s₀, hlist⟩ := area_returns I part fsdLoc s
  cases r with
  | some d => exact ⟨d, s₀, hlist⟩
  | none =>
    obtain ⟨xs, r, s', hscan, hin, -⟩ := searchesArea_iff.mp hsearch
    obtain ⟨hpos, hlast⟩ := lastBlock_area h
    rw [Nat.mod_eq_of_lt (by omega)] at hlast
    have hle := areaBlocks_le fsdLoc
    have harea := fileSetArea_eq hrange.le
    rw [harea] at hlist
    obtain ⟨ys, rfl, hys⟩ := (scan_behind (by omega) hlist).mp hscan
    have hzero : fsdLoc.lba + UInt32.ofNat (areaBlocks fsdLoc) = 0 := by
      apply UInt32.toNat_inj.mp
      rw [UInt32.toNat_add, UInt32.toNat_ofNat', UInt32.toNat_zero]
      omega
    rw [hzero] at hys
    by_cases hpart : partitionOf part fsdLoc.partition = none
    · exact (unmapped_endless hpart (by omega) hys).elim
    · -- block 0 is not one of the blocks up to the largest number
      have hmem : (0 : UInt32) ∈ fileSetArea fsdLoc := by
        refine hin hpart 0 (List.mem_append_right _ ?_)
        cases hys with
        | stop hnot => exact absurd (UInt32.zero_le) hnot
        | found => simp
        | next => simp
      rw [harea] at hmem
      have hbelow := UInt32.le_iff_toNat_le.mp ((mem_numbersFrom (by omega)).mp hmem).1
      rw [UInt32.toNat_zero] at hbelow
      omega

/-! ## The blocks of the medium -/

theorem visitFileSet_adds (lba : UInt32) :
    Proc.Adds (visitFileSet I.logged part fsdLoc lba) fun m =>
      ∃ p, partitionOf part fsdLoc.partition = some p ∧ IsCopy p lba m := by
  have hone : ((2048 : UInt32) - 1) / 2048 = 0 := by decide
  have hread : Proc.Adds (readMetadataBlocks I.logged part { fsdLoc with lba, length := 2048 })
      fun m => ∃ p, partitionOf part fsdLoc.partition = some p ∧ IsCopy p lba m :=
    readMetadataBlocks_adds I fun p k m hp hk hm => by
      obtain rfl : k = 0 := by
        rw [hone] at hk
        exact Nat.le_zero.mp hk
      exact ⟨p, hp, by simpa using hm⟩
  refine hread.bind fun v => ?_
  rcases v with _ | ⟨tag, buf⟩
  · exact Proc.adds_pure _
  · simp only
    split
    · exact Proc.adds_pure _
    · split
      · exact Proc.adds_pure _
      · exact Proc.adds_pure _

theorem visitFileSet_forgets (I : BlockInput σ) (part : UdfPartitions) (fsdLoc : LongAd)
    (lba : UInt32) :
    Proc.Forgets (visitFileSet I.logged part fsdLoc lba) (visitFileSet I part fsdLoc lba) := by
  refine (readMetadataBlocks_forgets I part _).bind fun v => ?_
  rcases v with _ | ⟨tag, buf⟩
  · exact Proc.forgets_pure _
  · simp only
    split
    · exact Proc.forgets_pure _
    · split
      · exact Proc.forgets_pure _
      · exact Proc.forgets_pure _

/-- The blocks of the medium that the search reads are copies of the logical blocks it asks for. -/
theorem findRootDir_reads {fuel : Nat} {root : Option LongAd} {log : List UInt32}
    (h : udfFindRootDir I.logged fuel part fsdLoc (s, []) = .ok (root, (s', log))) :
    ∃ xs, Asks I part fsdLoc s xs ∧ ∀ m ∈ log, ∃ x ∈ xs,
      ∃ p, partitionOf part fsdLoc.partition = some p ∧ IsCopy p x m := by
  rw [udfFindRootDir_eq] at h
  obtain ⟨r, t, hloop, hend⟩ := Proc.bind_eq_ok.mp h
  obtain ⟨xs, hscan⟩ := scan_of_scanTo hloop
  have hlog : t.2 = log := by
    rcases r with _ | _ | buf
    · cases hend
      rfl
    · cases hend
      rfl
    · obtain ⟨icb, t', hdec, hend'⟩ := Proc.bind_eq_ok.mp hend
      obtain ⟨-, rfl⟩ := Proc.ofRes_eq_ok.mp hdec
      cases hend'
      rfl
  subst hlog
  exact ⟨xs, ⟨r, t.1, hscan.forgets (visitFileSet_forgets I part fsdLoc)⟩,
    fun m hm => by simpa using hscan.adds visitFileSet_adds m hm⟩

/-! ## Areas in range -/

/-- The search for the File Set Descriptor stays inside of its area and ends, exactly if its block
numbers are in range. The blocks of the medium that it reads are copies of the ones it asks for. -/
theorem udfFindRootDir_iff (I : BlockInput σ) (part : UdfPartitions) (fsdLoc : LongAd) (s : σ) :
    (SearchesArea I part fsdLoc s ↔ AreaInRange I part fsdLoc s) ∧
    ∀ fuel root s' log, udfFindRootDir I.logged fuel part fsdLoc (s, []) = .ok (root, (s', log)) →
      ∃ xs, Asks I part fsdLoc s xs ∧ ∀ m ∈ log, ∃ x ∈ xs,
        ∃ p, partitionOf part fsdLoc.partition = some p ∧ IsCopy p x m := by
  refine ⟨?_, fun _ _ _ _ h => findRootDir_reads h⟩
  rw [AreaInRange]
  by_cases hlen : fsdLoc.length = 0
  · rw [if_pos hlen, searchesArea_empty hlen]
  · rw [if_neg hlen]
    rcases Nat.lt_trichotomy (fsdLoc.lba.toNat + areaBlocks fsdLoc) (2 ^ 32) with hlt | heq | hgt
    · simp only [searchesArea_inRange hlen hlt, hlt, true_or]
    · rw [searchesArea_edge hlen heq]
      simp [heq]
    · have hstop : ¬ fsdLoc.lba ≤ lastBlock fsdLoc := by
        obtain ⟨hpos, hlast⟩ := lastBlock_area hlen
        have hlba := fsdLoc.lba.toNat_lt
        have hle := areaBlocks_le fsdLoc
        rw [UInt32.le_iff_toNat_le]
        omega
      rw [searchesArea_stop hstop]
      simp only [hgt, true_and, not_lt_of_gt hgt, ne_of_gt hgt, false_and, false_or]

end

/-! ## Areas out of range -/

/-- An area of one block, the one with the largest number. -/
def lastArea : LongAd := { lba := 4294967295, length := 2048, partition := 1, extentType := 0 }

/-- An empty area in front of a File Set Descriptor is searched, and an area that ends with the
largest block number is searched for ever. -/
theorem searchesArea_out_of_range :
    ¬ SearchesArea (.ofImage (fun lba => if lba = 5 then some fileSetBlock else none) none)
        onePartition { lba := 5, length := 0, partition := 0, extentType := 0 } () ∧
      ¬ SearchesArea (.ofImage (fun _ => none) none) onePartition lastArea () := by
  refine ⟨fun h => ?_, fun h => ?_⟩
  · rcases (searchesArea_empty rfl).mp h with hwrap | ⟨hpart, -⟩
    · exact absurd hwrap (by simp)
    · exact absurd hpart (by decide)
  · have hlen : lastArea.length ≠ 0 := by decide
    have hedge : lastArea.lba.toNat + areaBlocks lastArea = 2 ^ 32 := by
      simp [lastArea, areaBlocks]
    obtain ⟨d, s', hd⟩ := (searchesArea_edge hlen hedge).mp h
    rw [unmapped_list (by decide)] at hd
    cases hd

end UdfRead
