import UdfRead.Handles
import UdfRead.PartitionMaps

/-!
# UdfRead.FailedOpen

What a failed open leaves in the handle. Opening the smallest volume shows the old locations of the
metadata partition, which make it look mapped, and the old root entries, behind which the new ones
are added. A handle opens every volume as a fresh one does exactly if it has neither, or selects a
partition that no volume has (`failedOpen_iff`).
-/

namespace UdfRead

open CModel

/-! ## Traces -/

section

variable {σ : Type}

/-- The mapped partitions. -/
def UdfPartitions.mapped (part : UdfPartitions) : List Partition :=
  [part.p0, part.p1].take part.numPartition.toNat

/-- Two handles that show the same volume. -/
structure SameVolume (I : BlockInput σ) (udf udf' : Udfread) : Prop where
  partitions : udf'.part.mapped = udf.part.mapped
  root : udf'.rootEntries = udf.rootEntries
  lookups : ∀ env es, (∃ st, Run (LookupStep I) { udf := udf', env, handles := [] } es st) ↔
    ∃ st, Run (LookupStep I) { udf, env, handles := [] } es st

/-- Every volume opens on the handle as on a fresh one with the same selection. -/
def Udfread.NoTrace (udf : Udfread) : Prop :=
  ∀ (σ : Type) (I : BlockInput σ) (fuel : Nat),
    Proc.Lockstep (fun r r' => r'.1 = r.1 ∧ (r.1 = 0 → SameVolume I r.2 r'.2))
      (udfreadOpenInput I fuel (.init udf.partitionToOpen)) (udfreadOpenInput I fuel udf)

end

/-! ## The smallest volume -/

section

variable {number : UInt16} {image : Image} {lba : UInt32} {f g : Nat → UInt8}

theorem readDescriptorBlock_faultFree (image : Image) (lba : UInt32) :
    (faultFree image).readDescriptorBlock lba () = .ok (imageTag image lba, ()) :=
  readDescriptorBlock_ofImage lba

/-- The tag of a block is that of a block with the same first bytes. -/
theorem imageTag_agrees {tag : TagIdentifier} (himage : image lba = some f)
    (hfg : ∀ k, k < 16 → f k = g k) (hg : decodeDescriptorTag (blockBytes g) 0 = .ok tag) :
    imageTag image lba = (tag, blockBytes f) := by
  have hagree : Agrees (blockBytes f) 0 (blockBytes g) 16 := by
    intro k hk
    rw [Nat.zero_add, blockBytes_getD (by omega), blockBytes_getD (by omega), hfg k hk]
  have htag : decodeDescriptorTag (blockBytes f) 0 = .ok tag := by
    rw [decodeDescriptorTag_eq (by simp), agrees_tag hagree (le_refl 16), ← hg,
      decodeDescriptorTag_eq (by simp)]
  simp only [imageTag, himage, htag]

theorem emptyVolume_probe : udfProbeVolume (faultFree (emptyVolume number)) () = .ok (true, ()) := by
  have h16 : (faultFree (emptyVolume number)).readBlock 16 () =
      .ok (some (blockBytes beaBlock), ()) := readBlock_ofImage 16
  have h17 : (faultFree (emptyVolume number)).readBlock (16 + 1) () =
      .ok (some (blockBytes nsrBlock), ()) := readBlock_ofImage 17
  have hbea : (blockBytes beaBlock).take 7 = bea := by decide +kernel
  have hnsr : (blockBytes nsrBlock).take 7 = nsr02 := by decide +kernel
  rw [udfProbeVolume, show 256 - 16 = 238 + 1 + 1 from rfl, probeLoop, Proc.bind_of_ok h16]
  simp only [hbea]
  rw [if_neg (by decide), if_neg (by decide), if_neg (by decide), probeLoop, Proc.bind_of_ok h17]
  simp only [hnsr]
  rw [if_neg (by decide), if_neg (by decide), if_pos (by decide)]
  rfl

theorem emptyVolume_anchor : readAvdp (faultFree (emptyVolume number)) () =
    .ok (some minimalAvdp, ()) := by
  have htag : imageTag (emptyVolume number) 256 =
      (.anchorVolumeDescriptorPointer, blockBytes minimalAnchor) :=
    imageTag_agrees rfl (fun _ _ => rfl) (by decide +kernel)
  have hdecode : decodeAvdp (blockBytes minimalAnchor) = .ok minimalAvdp := by decide +kernel
  rw [readAvdp, Proc.bind_of_ok (readDescriptorBlock_faultFree _ 256), htag]
  simp only [if_true, hdecode]
  rfl

theorem emptyVolume_primary : imageTag (emptyVolume number) 32 =
    (.primaryVolumeDescriptor, blockBytes (tagged 1)) :=
  imageTag_agrees rfl (fun _ _ => rfl) (by decide +kernel)

theorem emptyVolume_partition : imageTag (emptyVolume number) (32 + 1) =
    (.partitionDescriptor, blockBytes (partitionBlock number)) := by
  have hfg : ∀ k, k < 16 → partitionBlock number k = tagged 5 k := by
    intro k hk
    rw [partitionBlock, withField_outside (by omega), withField_outside (by omega)]
  exact imageTag_agrees rfl hfg (by decide +kernel)

theorem emptyVolume_logical : imageTag (emptyVolume number) (32 + 1 + 1) =
    (.logicalVolumeDescriptor, blockBytes (logicalBlock number)) := by
  have hfg : ∀ k, k < 16 → logicalBlock number k = tagged 6 k := by
    intro k hk
    rw [logicalBlock, withField_outside (by omega), withField_outside (by omega),
      withField_outside (by omega), withField_outside (by omega), withField_outside (by omega)]
  exact imageTag_agrees rfl hfg (by decide +kernel)

/-- The descriptors of the volume, for a selection of its partition. -/
structure MinimalVds (number : UInt16) (vds : VolumeDescriptorSet) : Prop where
  pd : vds.pd = { number, startBlock := 300, numBlocks := 0 }
  blockSize : vds.lvd.blockSize = 2048
  domainId : checkDomainIdentifier vds.lvd.domainId lvdDomainId = true
  contentsUse : vds.lvd.contentsUse = [0, 8] ++ List.replicate 14 0
  numPartitionMaps : vds.lvd.numPartitionMaps = 2
  lableLength : vds.lvd.partitionMapLableLength = 70
  table : ∃ rest, vds.lvd.partitionMapTable = minimalMaps number ++ rest

/-- One block of the scan. -/
theorem scanExtent_turn {partNumber : Int} {n : Nat} {tag : TagIdentifier} {buf : Bytes}
    {m m' : VdsMask} {vds vds' : VolumeDescriptorSet} (htag : imageTag image lba = (tag, buf))
    (hpointer : tag ≠ .volumeDescriptorPointer) (hend : tag ≠ .terminatingDescriptor)
    (htake : takeDescriptor partNumber tag buf m vds = .ok (m', vds')) :
    scanExtent (faultFree image) partNumber (n + 1) lba m vds () =
      if m'.haveAll ∧ partNumber ≠ partitionLast then .ok (.done m' vds', ())
      else scanExtent (faultFree image) partNumber n (lba + 1) m' vds' () := by
  rw [scanExtent, Proc.bind_of_ok (readDescriptorBlock_faultFree image lba), htag]
  simp only [hpointer, hend, if_false]
  rw [htake, Proc.ofRes_bind rfl]
  split
  · rfl
  · rfl

theorem emptyVolume_read {partNumber : Int} (hselect : Matches partNumber
    { number, startBlock := 300, numBlocks := 0 }) (fuel : Nat) :
    ∃ vds, udfReadVds (faultFree (emptyVolume number)) (fuel + 1) partNumber () =
        .ok (some vds, ()) ∧ MinimalVds number vds := by
  obtain ⟨pvd, hpvd⟩ := decodePrimaryVolume_ok (p := blockBytes (tagged 1)) (by simp)
  obtain ⟨lvd, hlvd, hsize, hdomain, huse, hmaps, hlable, htable⟩ :=
    logicalBlock_decode number VolumeDescriptorSet.zero.lvd
  refine ⟨⟨{ number, startBlock := 300, numBlocks := 0 }, pvd, lvd⟩, ?_,
    ⟨rfl, hsize, hdomain, huse, hmaps, hlable, htable⟩⟩
  have hpart : decide (partNumber < 0 ∨ partNumber = (number.toNat : Int)) = true :=
    decide_eq_true hselect
  have hprimary : takeDescriptor partNumber .primaryVolumeDescriptor (blockBytes (tagged 1))
      VdsMask.none .zero =
        .ok ({ VdsMask.none with pvd := true }, { VolumeDescriptorSet.zero with pvd }) := by
    simp only [takeDescriptor, hpvd]
    rfl
  have hpartition : takeDescriptor partNumber .partitionDescriptor (blockBytes (partitionBlock number))
      { VdsMask.none with pvd := true } { VolumeDescriptorSet.zero with pvd } =
        .ok ({ part := true, pvd := true, lvd := false },
          { VolumeDescriptorSet.zero with
            pvd, pd := { number, startBlock := 300, numBlocks := 0 } }) := by
    simp only [takeDescriptor, VdsMask.none, Bool.not_false, partitionBlock_decode, Res.ok_bind,
      Bool.false_or, hpart]
    rfl
  have hlogical : takeDescriptor partNumber .logicalVolumeDescriptor
      (blockBytes (logicalBlock number)) { part := true, pvd := true, lvd := false }
        { VolumeDescriptorSet.zero with
          pvd, pd := { number, startBlock := 300, numBlocks := 0 } } =
        .ok ({ part := true, pvd := true, lvd := true },
          ⟨{ number, startBlock := 300, numBlocks := 0 }, pvd, lvd⟩) := by
    simp only [takeDescriptor, hlvd]
    rfl
  have hscan : scanExtent (faultFree (emptyVolume number)) partNumber 3 32 VdsMask.none .zero () =
      .ok (.done { part := true, pvd := true, lvd := true }
        ⟨{ number, startBlock := 300, numBlocks := 0 }, pvd, lvd⟩, ()) := by
    rw [scanExtent_turn emptyVolume_primary (by decide) (by decide) hprimary,
      if_neg (by simp [VdsMask.haveAll, VdsMask.none]),
      scanExtent_turn emptyVolume_partition (by decide) (by decide) hpartition,
      if_neg (by simp [VdsMask.haveAll]),
      scanExtent_turn emptyVolume_logical (by decide) (by decide) hlogical]
    split
    · rfl
    · rfl
  rw [udfReadVds, Proc.bind_of_ok emptyVolume_anchor]
  simp only
  have hsearch : searchVds (faultFree (emptyVolume number)) partNumber (fuel + 1) minimalAvdp.mvds
      VdsMask.none .zero () = .ok (({ part := true, pvd := true, lvd := true },
        ⟨{ number, startBlock := 300, numBlocks := 0 }, pvd, lvd⟩), ()) := by
    rw [searchVds, show extentBlocks minimalAvdp.mvds = 3 by decide]
    exact (Proc.bind_of_ok hscan).trans rfl
  rw [Proc.bind_of_ok hsearch]
  rfl

/-! ### The partition maps -/

theorem emptyVolume_fileSet : imageTag (emptyVolume number) 300 =
    (.fileSetDescriptor, blockBytes fileSetBlock) :=
  imageTag_agrees rfl (fun _ _ => rfl) (by decide +kernel)

theorem emptyVolume_root : imageTag (emptyVolume number) 301 =
    (.fileEntry, blockBytes (inlineDirBlock [])) :=
  imageTag_agrees rfl (fun _ _ => rfl) (by decide +kernel)

/-- Where the metadata file should be is the File Set Descriptor. -/
theorem emptyVolume_copy (part : UdfPartitions) {pd : PartitionDescriptor}
    (hpd : pd.startBlock = 300) :
    mapMetadataCopy (faultFree (emptyVolume number)) part 0 pd () = .ok (part, ()) := by
  rw [mapMetadataCopy, hpd, Proc.bind_of_ok (readDescriptorBlock_faultFree _ _),
    show (300 : UInt32) + 0 = 300 by rfl, emptyVolume_fileSet]
  rfl

/-- The old locations of the metadata partition make it look mapped. -/
structure MinimalTable (old part : UdfPartitions) : Prop where
  p0 : part.p0 = { number := 0, lba := 300, mirrorLba := 0 }
  mapped : part.mapped.length = 2 ↔ old.p1.lba ≠ 0 ∨ old.p1.mirrorLba ≠ 0

variable {vds : VolumeDescriptorSet} {old part : UdfPartitions}

theorem minimalMaps_second (hvds : MinimalVds number vds)
    (hp0 : part.p0 = { number := 0, lba := 300, mirrorLba := 0 }) (hcount : part.numPartition = 1) :
    ∃ part', parsePartitionMap (faultFree (emptyVolume number)) vds 1 6 64 part 1 () =
        .ok (some (part', 1), ()) ∧ MinimalTable part part' := by
  obtain ⟨rest, htable⟩ := hvds.table
  have hsize := vds.lvd.tableSize
  have htype : getU8 vds.lvd.partitionMapTable 6 = .ok 2 := by
    rw [htable]
    rfl
  have hid : decodeEntityId vds.lvd.partitionMapTable 10 =
      .ok { identifier := metaDomainId, identifierSuffix := List.replicate 8 0 } := by
    rw [decodeEntityId, slice_eq (by omega), slice_eq (by omega), htable]
    rfl
  have href : ∃ ref, getU16 vds.lvd.partitionMapTable 44 = .ok ref := ⟨_, getU16_eq (by omega)⟩
  have hlba : getU32 vds.lvd.partitionMapTable 46 = .ok 0 := by
    rw [htable]
    rfl
  have hmirror : getU32 vds.lvd.partitionMapTable 50 = .ok 0 := by
    rw [htable]
    rfl
  obtain ⟨ref, href⟩ := href
  have hstart : vds.pd.startBlock = 300 := by rw [hvds.pd]
  unfold parsePartitionMap
  simp only
  rw [Proc.ofRes_bind htype, if_neg (by decide), if_pos rfl, if_neg (by decide),
    Proc.ofRes_bind hid, if_neg (by decide), Proc.ofRes_bind href, Proc.ofRes_bind hlba,
    Proc.ofRes_bind hmirror]
  have hmap : mapMetadataPartition (faultFree (emptyVolume number)) part 0 0 vds.pd () =
      .ok (((useMirror part.p1).lba ≠ 0, { part with p1 := useMirror part.p1 }), ()) := by
    rw [mapMetadataPartition, Proc.bind_of_ok (emptyVolume_copy part hstart),
      Proc.bind_of_ok (emptyVolume_copy part hstart)]
    unfold useMirror
    split
    · rfl
    · rfl
  rw [Proc.bind_of_ok hmap]
  have hfound : (useMirror part.p1).lba ≠ 0 ↔ part.p1.lba ≠ 0 ∨ part.p1.mirrorLba ≠ 0 := by
    unfold useMirror
    by_cases h : part.p1.lba = 0 ∧ part.p1.mirrorLba ≠ 0
    · simp [h]
    · rw [if_neg h]
      tauto
  by_cases hold : (useMirror part.p1).lba ≠ 0
  · simp only
    rw [if_neg (by simp [hold])]
    refine ⟨_, rfl, hp0, ?_⟩
    rw [← hfound]
    simp [UdfPartitions.mapped, hold]
  · simp only
    rw [if_pos (by simp [hold])]
    refine ⟨_, rfl, hp0, ?_⟩
    rw [← hfound]
    simp [UdfPartitions.mapped, hcount, hold]

theorem emptyVolume_table (hvds : MinimalVds number vds) (old : UdfPartitions) :
    ∃ part, udfParsePartitionMaps (faultFree (emptyVolume number)) vds old () =
      .ok ((true, part), ()) ∧ MinimalTable old part := by
  obtain ⟨rest, htable⟩ := hvds.table
  have hend : min vds.lvd.partitionMapLableLength.toNat 2048 = 70 := by
    rw [hvds.lableLength]
    rfl
  have hmaps : vds.lvd.numPartitionMaps.toNat = 2 := by
    rw [hvds.numPartitionMaps]
    rfl
  have hlen : getU8 vds.lvd.partitionMapTable 1 = .ok 6 := by
    rw [htable]
    rfl
  have hlen' : getU8 vds.lvd.partitionMapTable 7 = .ok 64 := by
    rw [htable]
    rfl
  have hp0 : ({ old with numPartition := 1, p0 := { number := 0, lba := 300, mirrorLba := 0 } } :
      UdfPartitions).p0 = { number := 0, lba := 300, mirrorLba := 0 } := rfl
  obtain ⟨part, hsecond, hpart⟩ := minimalMaps_second hvds hp0 rfl
  refine ⟨part, ?_, hpart.p0, hpart.mapped⟩
  have hloop : parsePartitionMapsLoop (faultFree (emptyVolume number)) vds 1024 0 0 old 0 () =
      .ok ((part, 1), ()) := by
    rw [show 1024 = 1021 + 1 + 1 + 1 from rfl, parsePartitionMapsLoop]
    simp only [hend, hmaps]
    rw [if_neg (by decide), Proc.ofRes_bind hlen, if_neg (by decide), if_neg (by decide),
      show (6 : UInt32).toNat = 6 from rfl, minimalMaps_first _ htable hvds.pd, pure_bind]
    simp only
    rw [parsePartitionMapsLoop]
    simp only [hend, hmaps]
    rw [if_neg (by decide), Proc.ofRes_bind hlen', if_neg (by decide), if_neg (by decide),
      show (64 : UInt32).toNat = 64 from rfl, Proc.bind_of_ok hsecond]
    simp only
    rw [parsePartitionMapsLoop]
    simp only [hend, hmaps]
    rw [if_pos (by decide)]
    rfl
  rw [udfParsePartitionMaps, Proc.bind_of_ok hloop]
  rfl

/-! ### The root directory -/

/-- Metadata of one block. -/
theorem readMetadataBlocks_one {loc : LongAd} {p : Partition} {tag : TagIdentifier} {buf : Bytes}
    (hp : partitionOf part loc.partition = some p) (hlength : loc.length = 2048)
    (htag : imageTag image (p.lba + loc.lba) = (tag, buf)) (hvalid : tag ≠ .invalid) :
    readMetadataBlocks (faultFree image) part loc () = .ok (some (tag, buf), ()) := by
  have hfirst : readFirst (faultFree image) p loc () = .ok ((tag, buf), ()) := by
    rw [readFirst, Proc.bind_of_ok (readDescriptorBlock_faultFree _ _), htag]
    simp only [hvalid, false_and, if_false]
    rfl
  rw [readMetadataBlocks]
  simp only [hp, hlength]
  rw [Proc.bind_of_ok hfirst]
  simp only [hvalid, if_false]
  rfl

/-- The ICB at block `lba` of partition 0. -/
def blockIcb (lba : UInt32) : LongAd :=
  { lba, length := 2048, partition := 0, extentType := 0 }

theorem partitionOf_first (hp0 : part.p0 = { number := 0, lba := 300, mirrorLba := 0 }) :
    partitionOf part 0 = some { number := 0, lba := 300, mirrorLba := 0 } := by
  simp [partitionOf, hp0]

theorem emptyVolume_valid (hvds : MinimalVds number vds) :
    udfValidateLogicalVolume vds.lvd = .ok (some (blockIcb 0)) := by
  rw [udfValidateLogicalVolume, if_neg (by simp [hvds.blockSize]), if_neg (by simp [hvds.domainId]),
    hvds.contentsUse]
  rfl

theorem emptyVolume_rootIcb (hp0 : part.p0 = { number := 0, lba := 300, mirrorLba := 0 })
    (fuel : Nat) :
    udfFindRootDir (faultFree (emptyVolume number)) (fuel + 1) part (blockIcb 0) () =
      .ok (some (blockIcb 1), ()) := by
  have hread : readMetadataBlocks (faultFree (emptyVolume number)) part (blockIcb 0) () =
      .ok (some (.fileSetDescriptor, blockBytes fileSetBlock), ()) :=
    readMetadataBlocks_one (partitionOf_first hp0) rfl emptyVolume_fileSet (by decide)
  have hdecode : decodeFileSetDescriptor (blockBytes fileSetBlock) = .ok (blockIcb 1) := by
    decide +kernel
  have hloop : findRootDirLoop (faultFree (emptyVolume number)) part (blockIcb 0)
      ((blockIcb 0).lba + ((blockIcb 0).length - 1) / 2048) (fuel + 1) (blockIcb 0).lba () =
        .ok (some (blockBytes fileSetBlock), ()) := by
    rw [findRootDirLoop, if_neg (by decide)]
    exact (Proc.bind_of_ok hread).trans rfl
  rw [udfFindRootDir]
  refine (Proc.bind_of_ok hloop).trans ?_
  simp only [hdecode]
  rfl

theorem emptyVolume_rootDir (hp0 : part.p0 = { number := 0, lba := 300, mirrorLba := 0 })
    (fuel : Nat) (entries : List UdfFileIdentifier) :
    udfReadDir (faultFree (emptyVolume number)) (fuel + 1) part (blockIcb 1) entries () =
      .ok ((0, entries), ()) := by
  have hread : readMetadataBlocks (faultFree (emptyVolume number)) part (blockIcb 1) () =
      .ok (some (.fileEntry, blockBytes (inlineDirBlock [])), ()) :=
    readMetadataBlocks_one (partitionOf_first hp0) rfl emptyVolume_root (by decide)
  have hdecode : decodeFileEntry (blockBytes (inlineDirBlock [])) 2048 0 =
      .ok (some { length := 0, fileType := 4, u := .data [] }) := by
    decide +kernel
  have hentry : readEntryBlock (faultFree (emptyVolume number)) part (blockIcb 1) () =
      .ok (some { length := 0, fileType := 4, u := .data [] }, ()) := by
    rw [readEntryBlock, readMetadata, if_neg (by decide), Proc.bind_of_ok hread]
    simp only [if_true]
    exact congrArg (fun r => Proc.ofRes r ()) hdecode
  have hchain : readFileEntryChain (faultFree (emptyVolume number)) (fuel + 1) part (blockIcb 1) () =
      .ok (some ({ length := 0, fileType := 4, u := .data [] }, .complete), ()) := by
    rw [readFileEntryChain, Proc.bind_of_ok hentry]
    rfl
  have hfile : udfReadFileEntry (faultFree (emptyVolume number)) (fuel + 1) part (blockIcb 1) () =
      .ok (some { length := 0, fileType := 4, u := .data [] }, ()) := by
    rw [udfReadFileEntry, Proc.bind_of_ok hchain]
    rfl
  rw [udfReadDir, Proc.bind_of_ok hfile]
  rfl

/-! ### Opening it -/

variable {udf : Udfread}

theorem rootEntries_setRootEntries (udf : Udfread) (entries : List UdfFileIdentifier) :
    (udf.setRootEntries entries).rootEntries = entries := by
  unfold Udfread.setRootEntries Udfread.rootEntries
  cases udf.dirs <;> rfl

theorem setRootEntries_part (udf : Udfread) (entries : List UdfFileIdentifier) :
    (udf.setRootEntries entries).part = udf.part := by
  unfold Udfread.setRootEntries
  cases udf.dirs <;> rfl

/-- The volume opens on every handle that selects its partition, with the old root entries; the old
locations of the metadata partition decide whether a second partition is mapped. -/
theorem emptyVolume_opens (hclosed : udf.isOpen = false)
    (hselect : Matches udf.partitionToOpen { number, startBlock := 300, numBlocks := 0 })
    (fuel : Nat) :
    ∃ udf', udfreadOpenInput (faultFree (emptyVolume number)) (fuel + 1) udf () =
        .ok ((0, udf'), ()) ∧ udf'.rootEntries = udf.rootEntries ∧
      (udf'.part.mapped.length = 2 ↔
        udf.part.p1.lba ≠ 0 ∨ udf.part.p1.mirrorLba ≠ 0) := by
  obtain ⟨vds, hread, hvds⟩ := emptyVolume_read hselect fuel
  obtain ⟨volumeIdentifier, hname⟩ := udfCs0ToMutf8_ok vds.pvd.volumeIdentifier
  obtain ⟨part, hmaps, hpart⟩ := emptyVolume_table hvds udf.part
  unfold udfreadOpenInput
  rw [hclosed]
  simp only [Bool.false_eq_true, if_false]
  rw [Proc.bind_of_ok emptyVolume_probe]
  simp only [Bool.not_true, Bool.false_eq_true, if_false]
  rw [Proc.bind_of_ok hread]
  simp only
  rw [Proc.ofRes_bind (emptyVolume_valid hvds)]
  simp only
  rw [Proc.ofRes_bind hname, Proc.bind_of_ok hmaps]
  simp only [Bool.not_true, Bool.false_eq_true, if_false]
  rw [openRoot, Proc.bind_of_ok (emptyVolume_rootIcb hpart.p0 fuel)]
  simp only
  rw [Proc.bind_of_ok (emptyVolume_rootDir hpart.p0 fuel _)]
  refine ⟨_, rfl, ?_, ?_⟩
  · exact rootEntries_setRootEntries _ _
  · simp only [setRootEntries_part]
    exact hpart.mapped

end

/-! ## What has to be left empty -/

section

variable {σ : Type} {I : BlockInput σ} {udf udf' : Udfread}

theorem HandleAlike.sameVolume (h : HandleAlike udf udf') : SameVolume I udf udf' where
  partitions := by
    unfold UdfPartitions.mapped
    rw [h.table.count Nat.one_ne_zero, h.table.first Nat.one_ne_zero]
    by_cases hcount : udf.part.numPartition > 1
    · rw [h.table.second Nat.one_ne_zero hcount]
    · have hle : udf.part.numPartition.toNat ≤ 1 := by
        have := mt UInt32.lt_iff_toNat_lt.mpr hcount
        simpa using this
      interval_cases udf.part.numPartition.toNat <;> rfl
  root := h.rootEntries
  lookups env es := by
    constructor
    · rintro ⟨st, hrun⟩
      exact lookups_alike h.symm env hrun
    · rintro ⟨st, hrun⟩
      exact lookups_alike h env hrun

/-- A selection that a partition number can match. -/
theorem exists_matches {partNumber : Int} (h : partNumber < 65536) :
    ∃ number : UInt16, Matches partNumber { number, startBlock := 300, numBlocks := 0 } := by
  by_cases hneg : partNumber < 0
  · exact ⟨0, .inl hneg⟩
  · refine ⟨UInt16.ofNat partNumber.toNat, .inr ?_⟩
    simp only [UInt16.toNat_ofNat']
    omega

theorem noTrace_of_empty (h : udf.Closed) (hempty : 65536 ≤ udf.partitionToOpen ∨
    udf.part.p1.lba = 0 ∧ udf.part.p1.mirrorLba = 0 ∧ udf.rootEntries = []) : udf.NoTrace := by
  intro σ I fuel
  have hopens : Proc.Lockstep OpenAlike (udfreadOpenInput I fuel (.init udf.partitionToOpen))
      (udfreadOpenInput I fuel udf) := by
    rcases hempty with hselect | ⟨hlba, hmirror, hroot⟩
    · exact udfreadOpenInput_unselected rfl h.1 rfl hselect
    · obtain ⟨entries, hdirs⟩ := h.2
      have hentries : entries = [] := by
        rw [← hroot, Udfread.rootEntries, hdirs]
      refine udfreadOpenInput_lockstep rfl h.1 rfl ?_ ?_
      · rw [hdirs, hentries]
        rfl
      · exact ⟨hlba, hmirror, fun hn => absurd rfl hn, fun hn => absurd rfl hn,
          fun hn => absurd rfl hn⟩
  intro s
  rcases hopens s with htrap | ⟨r, r', s', hfresh, hold, hr, halike⟩
  · exact .inl htrap
  · exact .inr ⟨r, r', s', hfresh, hold, hr, fun hzero => (halike hzero).sameVolume⟩

/-- Opening the smallest volume on a fresh handle and on this one. -/
theorem empty_of_noTrace (hopen : udf.isOpen = true → udf.partitionToOpen < 65536)
    (h : udf.NoTrace) :
    udf.isOpen = false ∧ (65536 ≤ udf.partitionToOpen ∨
      udf.part.p1.lba = 0 ∧ udf.part.p1.mirrorLba = 0 ∧ udf.rootEntries = []) := by
  have hclosed : udf.isOpen = false := by
    cases ho : udf.isOpen with
    | false => rfl
    | true =>
      obtain ⟨number, hselect⟩ := exists_matches (hopen ho)
      have hfresh : (Udfread.init udf.partitionToOpen).isOpen = false := rfl
      obtain ⟨udf₁, hrun, -⟩ := emptyVolume_opens hfresh hselect 0
      obtain ⟨r, hrun', hr, -⟩ := (h Unit (faultFree (emptyVolume number)) (0 + 1)).right hrun
      unfold udfreadOpenInput at hrun'
      rw [ho] at hrun'
      cases hrun'
      cases hr
  refine ⟨hclosed, ?_⟩
  by_cases hselect : 65536 ≤ udf.partitionToOpen
  · exact .inl hselect
  · refine .inr ?_
    obtain ⟨number, hselect⟩ := exists_matches (not_le.mp hselect)
    have hfresh : (Udfread.init udf.partitionToOpen).isOpen = false := rfl
    obtain ⟨udf₁, hrun₁, hroot₁, hmapped₁⟩ := emptyVolume_opens hfresh hselect 0
    obtain ⟨udf₂, hrun₂, hroot₂, hmapped₂⟩ := emptyVolume_opens hclosed hselect 0
    obtain ⟨r, hrun, -, hsame⟩ := (h Unit (faultFree (emptyVolume number)) (0 + 1)).right hrun₁
    rw [hrun₂] at hrun
    cases hrun
    have hvolume := hsame rfl
    have hp1 : ¬ (udf.part.p1.lba ≠ 0 ∨ udf.part.p1.mirrorLba ≠ 0) := by
      rw [← hmapped₂, hvolume.partitions, hmapped₁]
      simp [Udfread.init, UdfPartitions.zero]
    have hroot : udf.rootEntries = [] := by
      rw [← hroot₂, hvolume.root, hroot₁]
      rfl
    rw [not_or, not_not, not_not] at hp1
    exact ⟨hp1.1, hp1.2, hroot⟩

end

/-- A failed open leaves no trace exactly if the handle is closed, and either it selects a partition
number that no volume has, or the failed open has left no location of a metadata partition and no
root entries. -/
theorem failedOpen_iff {σ : Type} {A : BlockInput σ} {fuel : Nat} {udf udf' : Udfread} {s s' : σ}
    (hreached : udf.Reached) (hfailed : udfreadOpenInput A fuel udf s = .ok ((-1, udf'), s')) :
    udf'.NoTrace ↔ udf'.isOpen = false ∧ (65536 ≤ udf'.partitionToOpen ∨
      udf'.part.p1.lba = 0 ∧ udf'.part.p1.mirrorLba = 0 ∧ udf'.rootEntries = []) := by
  obtain ⟨hclosed, hopen⟩ := (hreached.openInput hfailed).handle
  constructor
  · intro h
    exact empty_of_noTrace hopen h
  · rintro ⟨h, hempty⟩
    exact noTrace_of_empty (hclosed h) hempty

/-- The root directory lists file "a", and then something that is no file identifier. -/
def brokenRoot : Image :=
  minimalVolume 7 fun lba =>
    if lba = 301 then some (inlineDirBlock (aFileFid ++ List.replicate 20 0)) else none

/-- The handle after the failed attempt to open it. -/
def brokenRootLeft : Udfread where
  isOpen := false
  part :=
    { numPartition := 1
      p0 := { number := 0, lba := 300, mirrorLba := 0 }
      p1 := { number := 0, lba := 0, mirrorLba := 0 } }
  dirs := [{ entries := [aFile], subdirs := none }]
  volumeIdentifier := some []
  volumeSetIdentifier := List.replicate 128 0
  partitionToOpen := 7

theorem brokenRoot_fails : udfreadOpenInput (faultFree brokenRoot) 1 (.init 7) () =
    .ok ((-1, brokenRootLeft), ()) := by
  decide +kernel

/-- The handle after an attempt to open a volume whose root directory cannot be read. -/
def lostRootLeft : Udfread := { brokenRootLeft with dirs := [{ entries := [], subdirs := none }] }

theorem lostRoot_fails :
    udfreadOpenInput (faultFree (minimalVolume 7 fun _ => none)) 1 (.init 7) () =
      .ok ((-1, lostRootLeft), ()) := by
  decide +kernel

/-- A root directory that is lost leaves the partition and the identifiers behind, and no trace; one
that is broken leaves entries. -/
theorem failedOpen_iff_root : lostRootLeft.NoTrace ∧ ¬ brokenRootLeft.NoTrace := by
  refine ⟨(failedOpen_iff (.init 7) lostRoot_fails).mpr ⟨rfl, .inr ⟨rfl, rfl, rfl⟩⟩, fun h => ?_⟩
  obtain ⟨-, hselect | ⟨-, -, hroot⟩⟩ := (failedOpen_iff (.init 7) brokenRoot_fails).mp h
  · exact absurd hselect (by decide)
  · cases hroot

/-- The entry of the broken directory shows up in the volume opened next. -/
theorem brokenRoot_traces :
    udfreadOpenInput (faultFree brokenRoot) 1 (.init 7) () = .ok ((-1, brokenRootLeft), ()) ∧
    udfreadOpenInput (faultFree (emptyVolume 7)) 1 brokenRootLeft () =
      .ok ((0, { brokenRootLeft with isOpen := true }), ()) ∧
    udfreadOpenInput (faultFree (emptyVolume 7)) 1 (.init 7) () =
      .ok ((0, { brokenRootLeft with
        isOpen := true, dirs := [{ entries := [], subdirs := none }] }), ()) ∧
    ¬ brokenRootLeft.NoTrace := by
  refine ⟨brokenRoot_fails, by decide +kernel, by decide +kernel, fun h => ?_⟩
  have hopen : brokenRootLeft.isOpen = true → brokenRootLeft.partitionToOpen < 65536 :=
    fun _ => by decide
  obtain ⟨-, hselect | ⟨-, -, hroot⟩⟩ := empty_of_noTrace hopen h
  · exact absurd hselect (by decide)
  · cases hroot

end UdfRead
