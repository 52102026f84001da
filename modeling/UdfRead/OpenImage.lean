import UdfRead.FileSetSearch
import UdfRead.MetadataMaps
import UdfRead.UdflsTermination
import UdfRead.VdsScan

/-!
# UdfRead.OpenImage

Opening an image, from its blocks only. `Mounts` says what has to be on an image to open it, stage
by stage, and what the handle then holds:

* `Recognized`: an NSR structure behind a BEA structure (`udf_probe_volume`).
* `VolumeSet`: what the descriptors met in the volume descriptor sequence add up to
  (`udf_read_vds`).
* `Locates`: the file set's area and the partition table (`udf_validate_logical_volume`,
  `udf_parse_partition_maps`).
* `RootAt`: the root directory's ICB (`udf_find_root_dir`).

The volume opens exactly if all of this is there (`udfreadOpenInput_iff`), and the call ends exactly
if none of its three walks is endless (`udfreadOpenInput_ends_iff`).
-/

namespace UdfRead

open CModel

/-! ## The volume recognition sequence -/

/-- Type, identifier and version of the structure at block `k`. -/
def structureId (image : Image) (k : Nat) : Option Bytes :=
  (image (.ofNat k)).map fun data => (blockBytes data).take 7

def IsNsr (image : Image) (k : Nat) : Prop :=
  structureId image k = some nsr02 ∨ structureId image k = some nsr03

/-- A terminator, or an empty block. -/
def EndsSequence (image : Image) (k : Nat) : Prop :=
  structureId image k = some tea ∨ structureId image k = some (List.replicate 7 0)

/-- Among the blocks `i .. i + n - 1` there is an NSR structure, behind a BEA structure (seen before
or among them), with no end of the sequence in front. -/
def RecognizedIn (image : Image) (i n : Nat) (beaSeen : Bool) : Prop :=
  ∃ k, i ≤ k ∧ k < i + n ∧ IsNsr image k ∧
    (beaSeen = true ∨ ∃ j, i ≤ j ∧ j < k ∧ structureId image j = some bea) ∧
    ∀ l, i ≤ l → l < k → ¬ EndsSequence image l

/-- The blocks 16 to 255 hold the recognition sequence of a UDF volume. -/
def Recognized (image : Image) : Prop :=
  ∃ j k, 16 ≤ j ∧ j < k ∧ k < 256 ∧ structureId image j = some bea ∧ IsNsr image k ∧
    ∀ l, 16 ≤ l → l < k → ¬ EndsSequence image l

section

variable {image : Image} {nblocks : Option UInt32} {i n : Nat} {beaSeen : Bool}

theorem IsNsr.not_bea (h : IsNsr image i) : structureId image i ≠ some bea := by
  rcases h with h | h
  · rw [h]
    decide
  · rw [h]
    decide

theorem IsNsr.not_ends (h : IsNsr image i) : ¬ EndsSequence image i := by
  unfold EndsSequence
  rcases h with h | h
  · rw [h]
    decide
  · rw [h]
    decide

/-- One block of the sequence. -/
theorem recognizedIn_succ : RecognizedIn image i (n + 1) beaSeen ↔
    IsNsr image i ∧ beaSeen = true ∨
    ¬ EndsSequence image i ∧
      RecognizedIn image (i + 1) n (beaSeen || decide (structureId image i = some bea)) := by
  constructor
  · rintro ⟨k, hik, hk, hnsr, hbea, hends⟩
    rcases Nat.eq_or_lt_of_le hik with rfl | hlt
    · refine .inl ⟨hnsr, hbea.resolve_right ?_⟩
      rintro ⟨j, hij, hjk, -⟩
      omega
    · refine .inr ⟨hends i le_rfl hlt, k, hlt, by omega, hnsr, ?_, fun l hl => hends l (by omega)⟩
      rcases hbea with hseen | ⟨j, hij, hjk, hj⟩
      · exact .inl (by simp [hseen])
      · rcases Nat.eq_or_lt_of_le hij with rfl | hij
        · exact .inl (by simp [hj])
        · exact .inr ⟨j, hij, hjk, hj⟩
  · rintro (⟨hnsr, hseen⟩ | ⟨hi, k, hik, hk, hnsr, hbea, hends⟩)
    · exact ⟨i, le_rfl, by omega, hnsr, .inl hseen, fun l hl hlt => by omega⟩
    · refine ⟨k, by omega, by omega, hnsr, ?_, fun l hl hlt => ?_⟩
      · rcases hbea with hseen | ⟨j, hij, hjk, hj⟩
        · rcases Bool.or_eq_true_iff.mp hseen with hseen | hi
          · exact .inl hseen
          · exact .inr ⟨i, le_rfl, by omega, of_decide_eq_true hi⟩
        · exact .inr ⟨j, by omega, hjk, hj⟩
      · rcases Nat.eq_or_lt_of_le hl with rfl | hl
        · exact hi
        · exact hends l hl hlt

theorem not_recognizedIn_of_ends (h : EndsSequence image i) :
    ¬ RecognizedIn image i (n + 1) beaSeen := by
  rw [recognizedIn_succ]
  rintro (⟨hnsr, -⟩ | ⟨hnot, -⟩)
  · exact hnsr.not_ends h
  · exact hnot h

theorem probeLoop_iff (image : Image) (nblocks : Option UInt32) (n i : Nat) (beaSeen : Bool) :
    ∃ b, probeLoop (.ofImage image nblocks) n (.ofNat i) beaSeen () = .ok (b, ()) ∧
      (b = true ↔ RecognizedIn image i n beaSeen) := by
  induction n generalizing i beaSeen with
  | zero =>
    refine ⟨false, rfl, ?_⟩
    simp only [Bool.false_eq_true, false_iff]
    rintro ⟨k, hik, hk, -⟩
    omega
  | succ n ih =>
    have hnext : UInt32.ofNat i + 1 = .ofNat (i + 1) := (UInt32.ofNat_add i 1).symm
    rw [probeLoop, Proc.bind_of_ok (readBlock_ofImage _), hnext]
    cases hi : image (.ofNat i) with
    | none =>
      have hid : structureId image i = none := by rw [structureId, hi, Option.map_none]
      obtain ⟨b, hrun, hb⟩ := ih (i + 1) beaSeen
      refine ⟨b, hrun, ?_⟩
      rw [hb, recognizedIn_succ]
      simp [IsNsr, EndsSequence, hid]
    | some data =>
      have hid : structureId image i = some ((blockBytes data).take 7) := by
        rw [structureId, hi, Option.map_some]
      simp only [Option.map_some]
      generalize (blockBytes data).take 7 = id at hid ⊢
      by_cases htea : id = tea
      · have hend : EndsSequence image i := .inl (by rw [hid, htea])
        exact ⟨false, by rw [if_pos htea]; rfl, by simp [not_recognizedIn_of_ends hend]⟩
      · by_cases hzero : id = List.replicate 7 0
        · have hend : EndsSequence image i := .inr (by rw [hid, hzero])
          exact ⟨false, by rw [if_neg htea, if_pos hzero]; rfl,
            by simp [not_recognizedIn_of_ends hend]⟩
        · have hends : ¬ EndsSequence image i := by
            rw [EndsSequence, hid, Option.some_inj, Option.some_inj]
            exact not_or_intro htea hzero
          rw [if_neg htea, if_neg hzero]
          by_cases hfound : (beaSeen || id == bea) = true ∧ (id = nsr02 ∨ id = nsr03)
          · have hnsr : IsNsr image i := by simpa [IsNsr, hid] using hfound.2
            have hbea : beaSeen = true := by
              refine (Bool.or_eq_true_iff.mp hfound.1).resolve_right fun hb => ?_
              exact hnsr.not_bea (by rw [hid, eq_of_beq hb])
            refine ⟨true, by rw [if_pos hfound]; rfl, ?_⟩
            rw [recognizedIn_succ]
            simp [hnsr, hbea]
          · obtain ⟨b, hrun, hb⟩ := ih (i + 1) (beaSeen || id == bea)
            refine ⟨b, by rw [if_neg hfound]; exact hrun, ?_⟩
            rw [hb, recognizedIn_succ]
            have hseen : (id == bea) = decide (structureId image i = some bea) := by
              rw [hid]
              simp [beq_eq_decide]
            rw [hseen] at hfound ⊢
            have hnot : ¬ (IsNsr image i ∧ beaSeen = true) := by
              rintro ⟨hnsr, hbea⟩
              exact hfound ⟨by simp [hbea], by simpa [IsNsr, hid] using hnsr⟩
            simp [hends, hnot]

theorem udfProbeVolume_iff (image : Image) (nblocks : Option UInt32) :
    ∃ b, udfProbeVolume (.ofImage image nblocks) () = .ok (b, ()) ∧
      (b = true ↔ Recognized image) := by
  obtain ⟨b, hrun, hb⟩ := probeLoop_iff image nblocks (256 - 16) 16 false
  refine ⟨b, hrun, hb.trans ?_⟩
  constructor
  · rintro ⟨k, -, hk, hnsr, hbea, hends⟩
    obtain ⟨j, hj, hjk, hid⟩ := hbea.resolve_left (by decide)
    exact ⟨j, k, hj, hjk, hk, hid, hnsr, hends⟩
  · rintro ⟨j, k, hj, hjk, hk, hid, hnsr, hends⟩
    exact ⟨k, by omega, hk, hnsr, .inr ⟨j, hj, hjk, hid⟩, hends⟩

end

/-! ## The volume descriptor sequence -/

/-- The blocks that may hold the anchor. -/
def anchorBlocks (nblocks : Option UInt32) : List UInt32 :=
  256 :: nblocks.elim [] fun n => [n - 1, n - 1 - 256]

/-- The anchor is in the first of the blocks that holds one. -/
def AnchorAt (image : Image) (nblocks : Option UInt32) (avdp : AnchorVolumeDescriptor) : Prop :=
  ∃ lba, (anchorBlocks nblocks).find? (fun lba =>
      (imageTag image lba).1 = .anchorVolumeDescriptorPointer) = some lba ∧
    decodeAvdp (imageTag image lba).2 = .ok avdp

/-- What the descriptors met in the volume descriptor sequence add up to, with a Primary Volume
Descriptor and a Partition Descriptor of the selected partition among them. -/
def VolumeSet (image : Image) (nblocks : Option UInt32) (select : Int) (vds : VolumeDescriptorSet) :
    Prop :=
  ∃ avdp ds m, AnchorAt image nblocks avdp ∧ MeetsVds image select avdp ds ∧
    takeAll select ds VdsMask.none .zero = .ok (m, vds) ∧ HasPrimary ds ∧ HasPartition select ds

section

variable {image : Image} {nblocks : Option UInt32} {select : Int} {fuel fuel' : Nat}
  {avdp : AnchorVolumeDescriptor} {vds : VolumeDescriptorSet} {m : VdsMask}

/-- The search for the anchor in a list of blocks. -/
def anchorFrom (image : Image) : List UInt32 → Proc Unit (Option AnchorVolumeDescriptor)
  | [] => pure none
  | lba :: rest => do
    let (tag, buf) ← (BlockInput.ofImage image none).readDescriptorBlock lba
    if tag = .anchorVolumeDescriptorPointer then return some (← Proc.ofRes (decodeAvdp buf))
    anchorFrom image rest

theorem anchorFrom_iff (image : Image) (blocks : List UInt32) :
    ∃ r, anchorFrom image blocks () = .ok (r, ()) ∧ ∀ avdp, r = some avdp ↔
      ∃ lba, blocks.find? (fun lba =>
          (imageTag image lba).1 = .anchorVolumeDescriptorPointer) = some lba ∧
        decodeAvdp (imageTag image lba).2 = .ok avdp := by
  induction blocks with
  | nil => exact ⟨none, rfl, by simp⟩
  | cons lba rest ih =>
    rw [anchorFrom, Proc.bind_of_ok (readDescriptorBlock_ofImage lba)]
    by_cases htag : (imageTag image lba).1 = .anchorVolumeDescriptorPointer
    · obtain ⟨avdp, hdec⟩ := decodeAvdp_ok (imageTag_length image lba (by rw [htag]; decide))
      refine ⟨some avdp, by simp only [htag, if_true, hdec]; rfl, fun avdp' => ?_⟩
      rw [List.find?_cons_of_pos (by simpa using htag)]
      simp [hdec]
    · obtain ⟨r, hrun, hr⟩ := ih
      refine ⟨r, by simp only [htag, if_false]; exact hrun, ?_⟩
      rwa [List.find?_cons_of_neg (by simpa using htag)]

theorem readAvdp_iff (image : Image) (nblocks : Option UInt32) :
    ∃ r, readAvdp (.ofImage image nblocks) () = .ok (r, ()) ∧
      ∀ avdp, r = some avdp ↔ AnchorAt image nblocks avdp := by
  have hfrom : readAvdp (.ofImage image nblocks) = anchorFrom image (anchorBlocks nblocks) := by
    cases nblocks with
    | none => rfl
    | some n => rfl
  rw [hfrom]
  exact anchorFrom_iff image (anchorBlocks nblocks)

theorem AnchorAt.read (h : AnchorAt image nblocks avdp) :
    readAvdp (.ofImage image nblocks) () = .ok (some avdp, ()) := by
  obtain ⟨r, hrun, hr⟩ := readAvdp_iff image nblocks
  rw [hrun, (hr avdp).mpr h]

/-! ### The search takes the fuel of its pointers -/

theorem searchVds_within {σ : Type} {I : BlockInput σ} (hle : fuel ≤ fuel') (loc : ExtentAd)
    (m : VdsMask) (vds : VolumeDescriptorSet) :
    Proc.Within (searchVds I select fuel loc m vds) (searchVds I select fuel' loc m vds) := by
  induction fuel generalizing fuel' loc m vds with
  | zero => exact Proc.within_error _ _
  | succ fuel ih =>
    obtain ⟨k, rfl⟩ := Nat.exists_eq_add_of_le' hle
    rw [show k + (fuel + 1) = (k + fuel) + 1 from rfl, searchVds, searchVds]
    refine Proc.within_bind _ fun e => ?_
    cases e with
    | done => exact Proc.within_refl _
    | next loc m vds => exact ih (Nat.le_add_left fuel k) loc m vds

theorem udfReadVds_within {σ : Type} {I : BlockInput σ} (hle : fuel ≤ fuel') :
    Proc.Within (udfReadVds I fuel select) (udfReadVds I fuel' select) := by
  refine Proc.within_bind _ fun r => ?_
  cases r with
  | none => exact Proc.within_refl _
  | some avdp =>
    refine (searchVds_within hle _ _ _).bind fun x => ?_
    by_cases hall : x.1.haveAll = true
    · simp only [hall, if_true]
      exact Proc.within_refl _
    · simp only [hall]
      exact (searchVds_within hle _ _ _).bind fun _ => Proc.within_refl _

/-- The rest of a search, from `n` blocks at `lba` on. -/
def searchFrom (image : Image) (nblocks : Option UInt32) (select : Int) (fuel n : Nat)
    (lba : UInt32) (m : VdsMask) (vds : VolumeDescriptorSet) :
    Proc Unit (VdsMask × VolumeDescriptorSet) := do
  match ← scanExtent (.ofImage image nblocks) select n lba m vds with
  | .done m vds => return (m, vds)
  | .next loc m vds => searchVds (.ofImage image nblocks) select fuel loc m vds

/-- A block that is not a pointer and no terminator. -/
theorem scanExtent_block (nblocks : Option UInt32) (n : Nat) (m : VdsMask) {lba : UInt32}
    {tag : TagIdentifier} {buf : Bytes} (htag : imageTag image lba = (tag, buf))
    (hptr : tag ≠ .volumeDescriptorPointer)
    (hterm : tag ≠ .terminatingDescriptor) (vds : VolumeDescriptorSet) :
    ∃ vds', scanExtent (.ofImage image nblocks) select (n + 1) lba m vds () =
      if Found select (m ⊔ blockKind select tag buf) then
        .ok (.done (m ⊔ blockKind select tag buf) vds', ())
      else scanExtent (.ofImage image nblocks) select n (lba + 1) (m ⊔ blockKind select tag buf)
        vds' () := by
  have hlen := imageTag_length image lba
  rw [htag] at hlen
  obtain ⟨vds', htake⟩ : ∃ vds', takeDescriptor select tag buf m vds =
    .ok (m ⊔ blockKind select tag buf, vds') := takeDescriptor_kind hlen vds
  refine ⟨vds', ?_⟩
  rw [scanExtent, Proc.bind_of_ok (readDescriptorBlock_ofImage lba), htag]
  simp only [hptr, hterm, if_false]
  rw [Proc.ofRes_bind htake]
  by_cases hfound : Found select (m ⊔ blockKind select tag buf)
  · rw [if_pos hfound]
    simp only [if_pos (show (m ⊔ blockKind select tag buf).haveAll = true ∧
      select ≠ partitionLast from hfound)]
    rfl
  · rw [if_neg hfound]
    simp only [if_neg (show ¬ ((m ⊔ blockKind select tag buf).haveAll = true ∧
      select ≠ partitionLast) from hfound)]

theorem searchFrom_returns (nblocks : Option UInt32) {n : Nat} {lba : UInt32}
    {ds : List Descriptor} (h : Meets image select n lba m ds) (vds : VolumeDescriptorSet) :
    ∃ fuel r, searchFrom image nblocks select fuel n lba m vds () = .ok (r, ()) := by
  induction h generalizing vds with
  | empty lba m => exact ⟨0, _, rfl⟩
  | @pointer n lba m buf loc ds htag hdec _ ih =>
    obtain ⟨fuel, r, hrun⟩ := ih vds
    refine ⟨fuel + 1, r, ?_⟩
    have hscan : scanExtent (.ofImage image nblocks) select (n + 1) lba m vds () =
        .ok (.next loc m vds, ()) := by
      rw [scanExtent, Proc.bind_of_ok (readDescriptorBlock_ofImage lba), htag]
      simp only [if_true, hdec]
      rfl
    rw [searchFrom, Proc.bind_of_ok hscan]
    exact hrun
  | @terminator n lba m buf htag =>
    have hscan : scanExtent (.ofImage image nblocks) select (n + 1) lba m vds () =
        .ok (.done m vds, ()) := by
      rw [scanExtent, Proc.bind_of_ok (readDescriptorBlock_ofImage lba), htag]
      rfl
    refine ⟨0, (m, vds), ?_⟩
    rw [searchFrom, Proc.bind_of_ok hscan]
    rfl
  | @last n lba m tag buf htag hptr hterm hfound =>
    obtain ⟨vds', hscan⟩ := scanExtent_block nblocks n m htag hptr hterm vds
    rw [if_pos hfound] at hscan
    refine ⟨0, (m ⊔ blockKind select tag buf, vds'), ?_⟩
    rw [searchFrom, Proc.bind_of_ok hscan]
    rfl
  | @next n lba m tag buf ds htag hptr hterm hfound _ ih =>
    obtain ⟨vds', hscan⟩ := scanExtent_block nblocks n m htag hptr hterm vds
    rw [if_neg hfound] at hscan
    obtain ⟨fuel, r, hrun⟩ := ih vds'
    refine ⟨fuel, r, ?_⟩
    rw [searchFrom] at hrun ⊢
    obtain ⟨e, ⟨⟩, he, hrest⟩ := Proc.bind_eq_ok.mp hrun
    rw [Proc.bind_of_ok (hscan.trans he)]
    exact hrest

theorem searchVds_returns (nblocks : Option UInt32) {loc : ExtentAd} {ds : List Descriptor}
    (h : Meets image select (extentBlocks loc) loc.lba m ds) (vds : VolumeDescriptorSet) :
    ∃ fuel r, searchVds (.ofImage image nblocks) select fuel loc m vds () = .ok (r, ()) := by
  obtain ⟨fuel, r, hrun⟩ := searchFrom_returns nblocks h vds
  exact ⟨fuel + 1, r, hrun⟩

/-- A search takes the descriptors that are met, and finds their kinds. -/
theorem searchVds_kinds {loc : ExtentAd} {ds : List Descriptor} {vds' : VolumeDescriptorSet}
    {m' : VdsMask} (h : Meets image select (extentBlocks loc) loc.lba VdsMask.none ds)
    (hrun : searchVds (.ofImage image nblocks) select fuel loc VdsMask.none vds () =
      .ok ((m', vds'), ())) : m' = kindsOf select ds := by
  obtain ⟨ds', hds', htake⟩ := searchVds_meets hrun
  obtain rfl := h.unique hds'
  rw [takeAll_mask h.length_eq htake, none_sup]

theorem udfReadVds_returns {ds : List Descriptor} (ha : AnchorAt image nblocks avdp)
    (h : MeetsVds image select avdp ds) :
    ∃ fuel r, udfReadVds (.ofImage image nblocks) fuel select () = .ok (r, ()) := by
  cases h with
  | @main ds hds hall =>
    obtain ⟨fuel, ⟨m, vds⟩, hmain⟩ := searchVds_returns nblocks hds .zero
    rw [← searchVds_kinds hds hmain] at hall
    refine ⟨fuel, some vds, ?_⟩
    rw [udfReadVds, Proc.bind_of_ok ha.read]
    simp only
    rw [Proc.bind_of_ok hmain]
    simp only [hall, if_true]
    rfl
  | @both ds ds' hds hnot hds' =>
    obtain ⟨n, ⟨m, vds⟩, hmain⟩ := searchVds_returns nblocks hds .zero
    rw [← searchVds_kinds hds hmain] at hnot hds'
    obtain ⟨n', ⟨m', vds'⟩, hreserve⟩ := searchVds_returns nblocks hds' vds
    refine ⟨max n n', if m'.haveRequired = true then some vds' else none, ?_⟩
    rw [udfReadVds, Proc.bind_of_ok ha.read]
    simp only
    rw [Proc.bind_of_ok (searchVds_within (Nat.le_max_left n n') _ _ _ _ _ hmain)]
    simp only [hnot, Bool.false_eq_true, if_false]
    rw [Proc.bind_of_ok (searchVds_within (Nat.le_max_right n n') _ _ _ _ _ hreserve)]
    split
    · rfl
    · rfl

theorem VolumeSet.read (h : VolumeSet image nblocks select vds) :
    ∃ fuel, udfReadVds (.ofImage image nblocks) fuel select () = .ok (some vds, ()) := by
  obtain ⟨avdp, ds, m, ha, hmeets, htake, hpvd, hpart⟩ := h
  obtain ⟨fuel, r, hrun⟩ := udfReadVds_returns ha hmeets
  obtain ⟨ds', m', vds', hmeets', htake', rfl⟩ := udfReadVds_meets ha.read hrun
  obtain rfl := hmeets.unique hmeets'
  rw [htake] at htake'
  cases htake'
  have hreq : m.haveRequired = true := by
    rw [VdsMask.haveRequired, (takeAll_part htake).mpr (.inr hpart),
      (takeAll_pvd htake).mpr (.inr hpvd)]
    rfl
  rw [if_pos hreq] at hrun
  exact ⟨fuel, hrun⟩

theorem volumeSet_of_read
    (h : udfReadVds (.ofImage image nblocks) fuel select () = .ok (some vds, ())) :
    VolumeSet image nblocks select vds := by
  obtain ⟨ra, ha, hanchor⟩ := readAvdp_iff image nblocks
  cases ra with
  | none =>
    rw [udfReadVds, Proc.bind_of_ok ha] at h
    cases h
  | some avdp =>
    obtain ⟨ds, m, vds', hmeets, htake, hr⟩ := udfReadVds_meets ha h
    by_cases hreq : m.haveRequired = true
    · rw [if_pos hreq] at hr
      cases hr
      obtain ⟨hpart, hpvd⟩ := Bool.and_eq_true_iff.mp hreq
      exact ⟨avdp, ds, m, (hanchor avdp).mp rfl, hmeets, htake,
        ((takeAll_pvd htake).mp hpvd).resolve_left (by decide),
        ((takeAll_part htake).mp hpart).resolve_left (by decide)⟩
    · rw [if_neg hreq] at hr
      cases hr

end

/-! ## The partition table -/

/-- The logical volume of the set is a UDF volume, with the area of its file set and its table of
partitions; a type 1 map refers to the selected partition. -/
structure Locates (image : Image) (nblocks : Option UInt32) (select : Int)
    (vds : VolumeDescriptorSet) (fsdLoc : LongAd) (part : UdfPartitions) : Prop where
  set : VolumeSet image nblocks select vds
  blockSize : vds.lvd.blockSize = 2048
  domain : checkDomainIdentifier vds.lvd.domainId lvdDomainId = true
  fileSet : decodeLongAd vds.lvd.contentsUse 0 = .ok fsdLoc
  mapped : ∃ map ∈ walkedMaps vds.lvd, RefersTo vds.lvd vds.pd.number map.2
  table : ((walkedMaps vds.lvd).foldl (takeMap image vds) (.zero, 0)).1 = part

/-- The handle with what is known of the volume then. -/
def Udfread.located (select : Int) (vds : VolumeDescriptorSet) (volumeIdentifier : Option Bytes)
    (part : UdfPartitions) : Udfread :=
  { Udfread.init select with
    part, volumeIdentifier, volumeSetIdentifier := vds.pvd.volumeSetIdentifier }

/-- The part of `udfread_open_input` behind the volume descriptor sequence. -/
def openVolume {σ : Type} (I : BlockInput σ) (fuel : Nat) (udf : Udfread) :
    Option VolumeDescriptorSet → Proc σ (Int × Udfread)
  | none => pure (-1, udf)
  | some vds => do
    match ← Proc.ofRes (udfValidateLogicalVolume vds.lvd) with
    | none => return (-1, udf)
    | some fsdLocation =>
      let volumeIdentifier ← Proc.ofRes (udfCs0ToMutf8 vds.pvd.volumeIdentifier)
      let udf := { udf with
        volumeIdentifier, volumeSetIdentifier := vds.pvd.volumeSetIdentifier }
      let (ok, part) ← udfParsePartitionMaps I vds udf.part
      let udf := { udf with part }
      if !ok then return (-1, udf)
      openRoot I fuel udf fsdLocation

section

variable {image : Image} {nblocks : Option UInt32} {select : Int} {fuel fuel' : Nat}
  {vds : VolumeDescriptorSet} {fsdLoc : LongAd} {part : UdfPartitions} {udf : Udfread}

theorem udfreadOpenInput_eq {σ : Type} (I : BlockInput σ) (fuel : Nat) (select : Int) :
    udfreadOpenInput I fuel (.init select) = (do
      if !(← udfProbeVolume I) then return (-1, .init select)
      openVolume I fuel (.init select) (← udfReadVds I fuel select)) := by
  unfold udfreadOpenInput
  rw [if_neg (by simp [Udfread.init])]
  refine congrArg (udfProbeVolume I >>= ·) (funext fun probed => ?_)
  cases probed with
  | false => rfl
  | true =>
    refine congrArg (udfReadVds I fuel select >>= ·) (funext fun r => ?_)
    cases r with
    | none => rfl
    | some vds => rfl

theorem decodeLogicalVolume_contentsUse {p : Bytes} {old lvd : LogicalVolumeDescriptor}
    (h : decodeLogicalVolume p old = .ok lvd) : lvd.contentsUse.length = 16 := by
  obtain ⟨_, -, h⟩ := Res.bind_eq_ok.mp h
  obtain ⟨_, -, h⟩ := Res.bind_eq_ok.mp h
  obtain ⟨use, huse, h⟩ := Res.bind_eq_ok.mp h
  obtain ⟨_, -, h⟩ := Res.bind_eq_ok.mp h
  obtain ⟨_, -, h⟩ := Res.bind_eq_ok.mp h
  obtain ⟨_, -, h⟩ := Res.bind_eq_ok.mp h
  simp only at h
  split at h
  · cases h
    rw [slice] at huse
    split at huse
    · cases huse
      simp
      omega
    · cases huse
  · cases h

theorem VolumeSet.contentsUse (h : VolumeSet image nblocks select vds) :
    vds.lvd.contentsUse.length = 16 := by
  obtain ⟨avdp, ds, m, -, -, htake, -⟩ := h
  have hkeep : VolumeDescriptorSet.zero.lvd.contentsUse.length = 16 →
      vds.lvd.contentsUse.length = 16 := by
    refine takeAll_induct (P := fun _ _ start => start.lvd.contentsUse.length = 16 →
      vds.lvd.contentsUse.length = 16) id ?_ htake
    intro d ds m start m₁ start₁ htakes ih hstart
    cases htakes with
    | primary => exact ih hstart
    | logical hdec => exact ih (decodeLogicalVolume_contentsUse hdec)
    | partition => exact ih hstart
    | skip => exact ih hstart
    | other => exact ih hstart
  exact hkeep (by decide)

/-- A volume descriptor set that is a UDF volume's, and its table of partitions. -/
theorem openVolume_located (fuel : Nat) (h : Locates image nblocks select vds fsdLoc part) :
    ∃ id, udfCs0ToMutf8 vds.pvd.volumeIdentifier = .ok id ∧
      openVolume (.ofImage image nblocks) fuel (.init select) (some vds) () =
        openRoot (.ofImage image nblocks) fuel (.located select vds id part) fsdLoc () := by
  obtain ⟨id, hid⟩ := udfCs0ToMutf8_ok vds.pvd.volumeIdentifier
  have hvalid : udfValidateLogicalVolume vds.lvd = .ok (some fsdLoc) := by
    rw [udfValidateLogicalVolume, if_neg (not_not_intro h.blockSize), h.domain, h.fileSet]
    rfl
  have htaken := (foldl_taken image vds (walkedMaps vds.lvd) (.zero, 0)).mpr (.inr h.mapped)
  have hmaps : udfParsePartitionMaps (.ofImage image nblocks) vds .zero () =
      .ok ((true, part), ()) := by
    rw [udfParsePartitionMaps_ofImage, h.table, decide_eq_true htaken]
  refine ⟨id, hid, ?_⟩
  rw [openVolume, Proc.ofRes_bind hvalid]
  simp only
  rw [Proc.ofRes_bind hid]
  exact Proc.bind_of_ok hmaps

theorem openVolume_unlocated (fuel : Nat) (hset : VolumeSet image nblocks select vds)
    (h : ∀ fsdLoc part, ¬ Locates image nblocks select vds fsdLoc part) :
    ∃ udf, openVolume (.ofImage image nblocks) fuel (.init select) (some vds) () =
      .ok ((-1, udf), ()) := by
  rw [openVolume]
  by_cases hsize : vds.lvd.blockSize = 2048
  · by_cases hdomain : checkDomainIdentifier vds.lvd.domainId lvdDomainId = true
    · have hloc := decodeLongAd_eq (p := vds.lvd.contentsUse) (i := 0)
        (by rw [hset.contentsUse])
      obtain ⟨id, hid⟩ := udfCs0ToMutf8_ok vds.pvd.volumeIdentifier
      have hvalid : udfValidateLogicalVolume vds.lvd =
          .ok (some (adAt .long vds.lvd.contentsUse 0 0)) := by
        rw [udfValidateLogicalVolume, if_neg (not_not_intro hsize), hdomain, hloc]
        rfl
      have hnone : ¬ ((walkedMaps vds.lvd).foldl (takeMap image vds) (.zero, 0)).2 ≠ 0 := by
        rw [foldl_taken]
        rintro (h0 | hmapped)
        · exact h0 rfl
        · exact h _ _ ⟨hset, hsize, hdomain, hloc, hmapped, rfl⟩
      have hmaps : udfParsePartitionMaps (.ofImage image nblocks) vds .zero () =
          .ok ((false, ((walkedMaps vds.lvd).foldl (takeMap image vds) (.zero, 0)).1), ()) := by
        rw [udfParsePartitionMaps_ofImage, decide_eq_false hnone]
      rw [Proc.ofRes_bind hvalid]
      simp only
      rw [Proc.ofRes_bind hid]
      exact ⟨_, Proc.bind_of_ok hmaps⟩
    · have hvalid : udfValidateLogicalVolume vds.lvd = .ok none := by
        rw [udfValidateLogicalVolume, if_neg (not_not_intro hsize), if_pos (by simpa using hdomain)]
      rw [Proc.ofRes_bind hvalid]
      exact ⟨_, rfl⟩
  · have hvalid : udfValidateLogicalVolume vds.lvd = .ok none := by
      rw [udfValidateLogicalVolume, if_pos hsize]
    rw [Proc.ofRes_bind hvalid]
    exact ⟨_, rfl⟩

end

/-! ## The root directory -/

/-- The first File Set Descriptor of the area has this root directory, and no terminator is in front
of it. -/
def RootAt (image : Image) (part : UdfPartitions) (fsdLoc icb : LongAd) : Prop :=
  ∃ xs buf, Scan (visitFileSet (faultFree image) part fsdLoc) (lastBlock fsdLoc) fsdLoc.lba () xs
      (some (some buf)) () ∧
    decodeFileSetDescriptor buf = .ok icb

/-- The handle of an open volume. -/
def Udfread.mounted (select : Int) (vds : VolumeDescriptorSet) (volumeIdentifier : Option Bytes)
    (part : UdfPartitions) (root : List UdfFileIdentifier) : Udfread :=
  { Udfread.located select vds volumeIdentifier part with
    isOpen := true, dirs := [{ entries := root, subdirs := none }] }

/-- The volume on an image, and the handle that it opens on. -/
inductive Mounts (image : Image) (nblocks : Option UInt32) (select : Int) : Udfread → Prop where
  | intro {vds : VolumeDescriptorSet} {fsdLoc icb : LongAd} {part : UdfPartitions}
      {root : List UdfFileIdentifier} {volumeIdentifier : Option Bytes} :
      Recognized image → Locates image nblocks select vds fsdLoc part →
      RootAt image part fsdLoc icb → Lists image part icb root →
      udfCs0ToMutf8 vds.pvd.volumeIdentifier = .ok volumeIdentifier →
      Mounts image nblocks select (.mounted select vds volumeIdentifier part root)

/-- The three walks of the call end: over the pointers of the volume descriptor sequence, over the
blocks of the file set's area, and over the allocation extents of the root directory. -/
structure WalksEnd (image : Image) (nblocks : Option UInt32) (select : Int) : Prop where
  pointers : ∀ avdp, AnchorAt image nblocks avdp → PointersEnd image select avdp
  area : ∀ vds fsdLoc part, Locates image nblocks select vds fsdLoc part →
    (lastBlock fsdLoc).toNat + 1 < 2 ^ 32 ∨
      ∃ lba v, visitFileSet (faultFree image) part fsdLoc lba () = .ok (some v, ())
  root : ∀ vds fsdLoc part icb, Locates image nblocks select vds fsdLoc part →
    RootAt image part fsdLoc icb → EntryEnds image part icb

section

variable {image : Image} {nblocks : Option UInt32} {select : Int} {fuel fuel' : Nat}
  {vds : VolumeDescriptorSet} {fsdLoc icb : LongAd} {part : UdfPartitions} {udf : Udfread}
  {root : List UdfFileIdentifier}

/-! ### The size of the image is not asked for -/

theorem readFollowingLoop_image (p : Partition) (loc : LongAd) (n : Nat) (i : UInt32)
    (buf : Bytes) :
    readFollowingLoop (.ofImage image nblocks) p loc n i buf =
      readFollowingLoop (faultFree image) p loc n i buf := by
  induction n generalizing i buf with
  | zero => rfl
  | succ n ih =>
    rw [readFollowingLoop, readFollowingLoop]
    simp only [ih]
    rfl

theorem readMetadataBlocks_image (loc : LongAd) :
    readMetadataBlocks (.ofImage image nblocks) part loc =
      readMetadataBlocks (faultFree image) part loc := by
  unfold readMetadataBlocks
  simp only [readFollowingLoop_image]
  rfl

theorem readMetadata_image (loc : LongAd) : readMetadata (.ofImage image nblocks) part loc =
    readMetadata (faultFree image) part loc := by
  rw [readMetadata, readMetadata, readMetadataBlocks_image]

theorem readExtents_image (fe : FileEntry) : readExtents (.ofImage image nblocks) part fuel fe =
    readExtents (faultFree image) part fuel fe := by
  induction fuel generalizing fe with
  | zero => rfl
  | succ fuel ih =>
    rw [readExtents, readExtents]
    simp only [ih, readMetadata_image]

theorem udfReadDir_image (dir : List UdfFileIdentifier) :
    udfReadDir (.ofImage image nblocks) fuel part icb dir =
      udfReadDir (faultFree image) fuel part icb dir := by
  unfold udfReadDir udfReadFileEntry readFileEntryChain readEntryBlock readDirOf readDirFile
  simp only [readMetadata_image, readExtents_image]

theorem udfFindRootDir_image : udfFindRootDir (.ofImage image nblocks) fuel part fsdLoc =
    udfFindRootDir (faultFree image) fuel part fsdLoc := by
  have hvisit : visitFileSet (.ofImage image nblocks) part fsdLoc =
      visitFileSet (faultFree image) part fsdLoc := by
    funext lba
    rw [visitFileSet, visitFileSet, readMetadataBlocks_image]
  rw [udfFindRootDir_eq, udfFindRootDir_eq, hvisit]

/-! ### More fuel -/

theorem udfFindRootDir_within {σ : Type} {I : BlockInput σ} (hle : fuel ≤ fuel') :
    Proc.Within (udfFindRootDir I fuel part fsdLoc) (udfFindRootDir I fuel' part fsdLoc) := by
  rw [udfFindRootDir_eq, udfFindRootDir_eq]
  exact (scanTo_within hle).bind fun _ => Proc.within_refl _

theorem openRoot_within {σ : Type} {I : BlockInput σ} (hle : fuel ≤ fuel') :
    Proc.Within (openRoot I fuel udf fsdLoc) (openRoot I fuel' udf fsdLoc) := by
  refine (udfFindRootDir_within hle).bind fun r => ?_
  cases r with
  | none => exact Proc.within_refl _
  | some icb =>
    exact Proc.Within.bind (fun s r h => udfReadDir_mono hle h) fun _ => Proc.within_refl _

theorem openVolume_within {σ : Type} {I : BlockInput σ} (hle : fuel ≤ fuel') (udf : Udfread)
    (r : Option VolumeDescriptorSet) :
    Proc.Within (openVolume I fuel udf r) (openVolume I fuel' udf r) := by
  cases r with
  | none => exact Proc.within_refl _
  | some vds =>
    refine Proc.within_bind _ fun valid => ?_
    cases valid with
    | none => exact Proc.within_refl _
    | some loc =>
      refine Proc.within_bind _ fun id => Proc.within_bind _ fun x => ?_
      obtain ⟨ok, part⟩ := x
      cases ok with
      | false => exact Proc.within_refl _
      | true => exact openRoot_within hle

theorem udfreadOpenInput_within {σ : Type} {I : BlockInput σ} (hle : fuel ≤ fuel') :
    Proc.Within (udfreadOpenInput I fuel (.init select))
      (udfreadOpenInput I fuel' (.init select)) := by
  rw [udfreadOpenInput_eq, udfreadOpenInput_eq]
  refine Proc.within_bind _ fun probed => ?_
  cases probed with
  | false =>
    simp only [Bool.not_false, if_true]
    exact Proc.within_refl _
  | true => exact (udfReadVds_within hle).bind fun r => openVolume_within hle _ r

/-! ### The search for the root directory -/

theorem root_found (nblocks : Option UInt32) (h : RootAt image part fsdLoc icb) :
    ∃ fuel, udfFindRootDir (.ofImage image nblocks) fuel part fsdLoc () = .ok (some icb, ()) := by
  obtain ⟨xs, buf, hscan, hdec⟩ := h
  refine ⟨xs.length + 1, ?_⟩
  rw [udfFindRootDir_image, udfFindRootDir_eq, Proc.bind_of_ok (scanTo_of_scan hscan)]
  exact congrFun (Proc.ofRes_bind hdec) ()

theorem rootAt_of_found
    (h : udfFindRootDir (.ofImage image nblocks) fuel part fsdLoc () = .ok (some icb, ())) :
    RootAt image part fsdLoc icb := by
  rw [udfFindRootDir_image, udfFindRootDir_eq] at h
  obtain ⟨r, ⟨⟩, hscan, hroot⟩ := Proc.bind_eq_ok.mp h
  obtain ⟨xs, hxs⟩ := scan_of_scanTo hscan
  obtain ⟨buf, rfl, hdec⟩ := (rootOf_some hroot icb).mp rfl
  exact ⟨xs, buf, hxs, hdec⟩

/-- The search for the root directory ends below the largest block number, and at a descriptor. -/
theorem area_ends_iff : (∃ fuel r,
      udfFindRootDir (.ofImage image nblocks) fuel part fsdLoc () = .ok (r, ())) ↔
    (lastBlock fsdLoc).toNat + 1 < 2 ^ 32 ∨
      ∃ lba v, visitFileSet (faultFree image) part fsdLoc lba () = .ok (some v, ()) := by
  have hvisit : ∀ lba, ∃ v, visitFileSet (faultFree image) part fsdLoc lba () = .ok (v, ()) := by
    intro lba
    obtain ⟨v, _, hv, -⟩ := visitFileSet_returns (faultFree image) part fsdLoc lba ()
    exact ⟨v, hv⟩
  rw [← scan_ends_iff (x := fsdLoc.lba) hvisit]
  constructor
  · rintro ⟨fuel, r, h⟩
    rw [udfFindRootDir_image, udfFindRootDir_eq] at h
    obtain ⟨v, ⟨⟩, hscan, -⟩ := Proc.bind_eq_ok.mp h
    obtain ⟨xs, hxs⟩ := scan_of_scanTo hscan
    exact ⟨xs, v, hxs⟩
  · rintro ⟨xs, v, hxs⟩
    obtain ⟨fuel, r, ⟨⟩, h⟩ := findRootDir_of_scan hxs
    exact ⟨fuel, r, by rw [udfFindRootDir_image]; exact h⟩

/-! ### The last part of the call -/

theorem openRoot_mounted (nblocks : Option UInt32) (select : Int) (vds : VolumeDescriptorSet)
    (id : Option Bytes) (hroot : RootAt image part fsdLoc icb)
    (hlist : Lists image part icb root) :
    ∃ fuel, openRoot (.ofImage image nblocks) fuel (.located select vds id part) fsdLoc () =
      .ok ((0, .mounted select vds id part root), ()) := by
  obtain ⟨n, hfind⟩ := root_found nblocks hroot
  obtain ⟨n', r, hread, hr⟩ := hlist
  refine ⟨max n n', ?_⟩
  have hread' : udfReadDir (.ofImage image nblocks) (max n n') part icb [] () =
      .ok ((r, root), ()) := by
    rw [udfReadDir_image]
    exact udfReadDir_mono (Nat.le_max_right n n') hread
  rw [openRoot]
  refine (Proc.bind_of_ok (udfFindRootDir_within (Nat.le_max_left n n') _ _ hfind)).trans ?_
  refine (Proc.bind_of_ok hread').trans ?_
  simp only
  rw [if_neg (not_lt.mpr hr)]
  rfl

theorem mounted_of_openRoot {id : Option Bytes}
    (h : openRoot (.ofImage image nblocks) fuel (.located select vds id part) fsdLoc () =
      .ok ((0, udf), ())) :
    ∃ icb root, RootAt image part fsdLoc icb ∧ Lists image part icb root ∧
      udf = .mounted select vds id part root := by
  obtain ⟨r, ⟨⟩, hfind, h⟩ := Proc.bind_eq_ok.mp h
  cases r with
  | none => cases h
  | some icb =>
    obtain ⟨⟨result, root⟩, ⟨⟩, hread, h⟩ := Proc.bind_eq_ok.mp h
    simp only at h
    split at h
    · cases h
    · rename_i hr
      cases h
      rw [udfReadDir_image] at hread
      exact ⟨icb, root, rootAt_of_found hfind, ⟨fuel, result, hread, not_lt.mp hr⟩, rfl⟩

/-- Reading a directory whose allocation extents end. -/
theorem readEnds_of_entryEnds (h : EntryEnds image part icb) (dir : List UdfFileIdentifier) :
    ∃ fuel r, udfReadDir (faultFree image) fuel part icb dir () = .ok (r, ()) := by
  obtain ⟨fuel, r, hchain, hdata⟩ := readFileEntryChain_returns h
  have hread : udfReadFileEntry (faultFree image) fuel part icb () =
      .ok (r.map Prod.fst, ()) := Proc.bind_of_ok hchain
  refine ⟨fuel, ?_⟩
  rw [udfReadDir, Proc.bind_of_ok hread]
  cases hfe : r.map Prod.fst with
  | none => exact ⟨_, rfl⟩
  | some fe =>
    obtain ⟨r', _, hdir, -⟩ := readDirOf_returns (faultFree image) part
      (fun content => hdata fe content hfe) dir ()
    exact ⟨r', hdir⟩

theorem openRoot_ends (nblocks : Option UInt32) (udf : Udfread)
    (harea : (lastBlock fsdLoc).toNat + 1 < 2 ^ 32 ∨
      ∃ lba v, visitFileSet (faultFree image) udf.part fsdLoc lba () = .ok (some v, ()))
    (hroot : ∀ icb, RootAt image udf.part fsdLoc icb → EntryEnds image udf.part icb) :
    ∃ fuel r, openRoot (.ofImage image nblocks) fuel udf fsdLoc () = .ok (r, ()) := by
  obtain ⟨n, found, hfind⟩ : ∃ fuel r, udfFindRootDir (.ofImage image nblocks) fuel udf.part fsdLoc
    () = .ok (r, ()) := area_ends_iff.mpr harea
  cases found with
  | none =>
    refine ⟨n, (-1, udf), ?_⟩
    rw [openRoot, Proc.bind_of_ok hfind]
    rfl
  | some icb =>
    obtain ⟨n', ⟨result, root⟩, hread⟩ := readEnds_of_entryEnds (hroot icb (rootAt_of_found hfind))
      udf.rootEntries
    refine ⟨max n n', if result < 0 then (-1, udf.setRootEntries root)
      else (0, { udf.setRootEntries root with isOpen := true }), ?_⟩
    have hread' : udfReadDir (.ofImage image nblocks) (max n n') udf.part icb udf.rootEntries () =
        .ok ((result, root), ()) := by
      rw [udfReadDir_image]
      exact udfReadDir_mono (Nat.le_max_right n n') hread
    rw [openRoot, Proc.bind_of_ok (udfFindRootDir_within (Nat.le_max_left n n') _ _ hfind)]
    simp only
    rw [Proc.bind_of_ok hread']
    simp only
    split
    · rfl
    · rfl

end

/-! ## The call -/

section

variable {image : Image} {nblocks : Option UInt32} {select : Int} {fuel fuel' : Nat}
  {vds : VolumeDescriptorSet} {udf : Udfread} {r : Int × Udfread}

theorem open_unrecognized (h : ¬ Recognized image) :
    udfreadOpenInput (.ofImage image nblocks) fuel (.init select) () =
      .ok ((-1, .init select), ()) := by
  obtain ⟨b, hprobe, hb⟩ := udfProbeVolume_iff image nblocks
  obtain rfl : b = false := by simpa using mt hb.mp h
  rw [udfreadOpenInput_eq, Proc.bind_of_ok hprobe]
  rfl

theorem open_recognized (h : Recognized image) :
    udfreadOpenInput (.ofImage image nblocks) fuel (.init select) () =
      (udfReadVds (.ofImage image nblocks) fuel select >>=
        openVolume (.ofImage image nblocks) fuel (.init select)) () := by
  obtain ⟨b, hprobe, hb⟩ := udfProbeVolume_iff image nblocks
  obtain rfl := hb.mpr h
  rw [udfreadOpenInput_eq, Proc.bind_of_ok hprobe]
  rfl

theorem mounts_of_open
    (h : udfreadOpenInput (.ofImage image nblocks) fuel (.init select) () = .ok ((0, udf), ())) :
    Mounts image nblocks select udf := by
  by_cases hrec : Recognized image
  · rw [open_recognized hrec] at h
    obtain ⟨r, ⟨⟩, hvds, h⟩ := Proc.bind_eq_ok.mp h
    cases r with
    | none => cases h
    | some vds =>
      have hset := volumeSet_of_read hvds
      by_cases hloc : ∃ fsdLoc part, Locates image nblocks select vds fsdLoc part
      · obtain ⟨fsdLoc, part, hloc⟩ := hloc
        obtain ⟨id, hid, hopen⟩ := openVolume_located fuel hloc
        obtain ⟨icb, root, hroot, hlist, rfl⟩ := mounted_of_openRoot (hopen.symm.trans h)
        exact .intro hrec hloc hroot hlist hid
      · obtain ⟨udf', hfail⟩ := openVolume_unlocated fuel hset
          fun fsdLoc part h => hloc ⟨fsdLoc, part, h⟩
        rw [hfail] at h
        cases h
  · rw [open_unrecognized hrec] at h
    cases h

theorem open_of_mounts (h : Mounts image nblocks select udf) :
    ∃ fuel, udfreadOpenInput (.ofImage image nblocks) fuel (.init select) () =
      .ok ((0, udf), ()) := by
  obtain ⟨hrec, hloc, hroot, hlist, hid⟩ := h
  rename_i vds fsdLoc icb part root id
  obtain ⟨n, hvds⟩ := hloc.set.read
  obtain ⟨n', hopen⟩ := openRoot_mounted nblocks select vds id hroot hlist
  refine ⟨max n n', ?_⟩
  rw [open_recognized hrec,
    Proc.bind_of_ok (udfReadVds_within (Nat.le_max_left n n') _ _ hvds)]
  obtain ⟨id', hid', heq⟩ := openVolume_located (max n n') hloc
  rw [hid] at hid'
  cases hid'
  rw [heq]
  exact openRoot_within (Nat.le_max_right n n') _ _ hopen

/-- A volume opens exactly if it is on the image, and on this handle. -/
theorem udfreadOpenInput_iff (image : Image) (nblocks : Option UInt32) (select : Int)
    (udf : Udfread) :
    (∃ fuel, udfreadOpenInput (.ofImage image nblocks) fuel (.init select) () =
      .ok ((0, udf), ())) ↔ Mounts image nblocks select udf :=
  ⟨fun ⟨_, h⟩ => mounts_of_open h, open_of_mounts⟩

theorem vds_returns (h : ∀ avdp, AnchorAt image nblocks avdp → PointersEnd image select avdp) :
    ∃ fuel r, udfReadVds (.ofImage image nblocks) fuel select () = .ok (r, ()) := by
  obtain ⟨a, ha, hanchor⟩ := readAvdp_iff image nblocks
  cases a with
  | none =>
    refine ⟨0, none, ?_⟩
    rw [udfReadVds, Proc.bind_of_ok ha]
    rfl
  | some avdp => exact returns_of_pointersEnd ha (h avdp ((hanchor avdp).mp rfl))

/-- The call ends exactly if its walks do. -/
theorem udfreadOpenInput_ends_iff (image : Image) (nblocks : Option UInt32) (select : Int) :
    (∃ fuel r, udfreadOpenInput (.ofImage image nblocks) fuel (.init select) () = .ok (r, ())) ↔
      (Recognized image → WalksEnd image nblocks select) := by
  constructor
  · rintro ⟨fuel, r, h⟩ hrec
    rw [open_recognized hrec] at h
    obtain ⟨v, ⟨⟩, hvds, h⟩ := Proc.bind_eq_ok.mp h
    have hroot : ∀ vds fsdLoc part, Locates image nblocks select vds fsdLoc part →
        ∃ id r, openRoot (.ofImage image nblocks) fuel (.located select vds id part) fsdLoc () =
          .ok (r, ()) := by
      intro vds fsdLoc part hloc
      obtain ⟨n, hread⟩ := hloc.set.read
      cases (udfReadVds_within (Nat.le_max_left fuel n)).unique
        (udfReadVds_within (Nat.le_max_right fuel n)) hvds hread
      obtain ⟨id, -, heq⟩ := openVolume_located fuel hloc
      exact ⟨id, r, heq.symm.trans h⟩
    refine ⟨fun avdp ha => pointersEnd_of_returns ha.read hvds, fun vds fsdLoc part hloc => ?_,
      fun vds fsdLoc part icb hloc hat => ?_⟩
    · obtain ⟨id, r, hopen⟩ := hroot vds fsdLoc part hloc
      obtain ⟨found, ⟨⟩, hfind, -⟩ := Proc.bind_eq_ok.mp hopen
      exact area_ends_iff.mp ⟨fuel, found, hfind⟩
    · obtain ⟨id, r, hopen⟩ := hroot vds fsdLoc part hloc
      obtain ⟨found, ⟨⟩, hfind, hopen⟩ := Proc.bind_eq_ok.mp hopen
      obtain ⟨n, hfind'⟩ := root_found nblocks hat
      cases (udfFindRootDir_within (Nat.le_max_left fuel n)).unique
        (udfFindRootDir_within (Nat.le_max_right fuel n)) hfind hfind'
      obtain ⟨x, ⟨⟩, hread, -⟩ := Proc.bind_eq_ok.mp hopen
      rw [udfReadDir_image] at hread
      obtain ⟨_, ⟨⟩, hentry, -⟩ := Proc.bind_eq_ok.mp hread
      obtain ⟨_, ⟨⟩, hchain, -⟩ := Proc.bind_eq_ok.mp hentry
      exact entryEnds_of_returns hchain
  · intro hends
    by_cases hrec : Recognized image
    · obtain ⟨hpointers, harea, hroot⟩ := hends hrec
      obtain ⟨n, found, hvds⟩ := vds_returns hpointers
      cases found with
      | none =>
        refine ⟨n, (-1, .init select), ?_⟩
        rw [open_recognized hrec, Proc.bind_of_ok hvds]
        rfl
      | some vds =>
        have hset := volumeSet_of_read hvds
        by_cases hloc : ∃ fsdLoc part, Locates image nblocks select vds fsdLoc part
        · obtain ⟨fsdLoc, part, hloc⟩ := hloc
          obtain ⟨id, hid⟩ := udfCs0ToMutf8_ok vds.pvd.volumeIdentifier
          obtain ⟨n', r, hopen⟩ := openRoot_ends nblocks (.located select vds id part)
            (harea vds fsdLoc part hloc) fun icb => hroot vds fsdLoc part icb hloc
          refine ⟨max n n', r, ?_⟩
          rw [open_recognized hrec,
            Proc.bind_of_ok (udfReadVds_within (Nat.le_max_left n n') _ _ hvds)]
          obtain ⟨id', hid', heq⟩ := openVolume_located (max n n') hloc
          rw [hid] at hid'
          cases hid'
          rw [heq]
          exact openRoot_within (Nat.le_max_right n n') _ _ hopen
        · obtain ⟨udf, hfail⟩ := openVolume_unlocated n hset fun fsdLoc part h =>
            hloc ⟨fsdLoc, part, h⟩
          refine ⟨n, (-1, udf), ?_⟩
          rw [open_recognized hrec, Proc.bind_of_ok hvds]
          exact hfail
    · exact ⟨0, _, open_unrecognized hrec⟩

end

end UdfRead
