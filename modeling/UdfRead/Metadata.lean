import UdfRead.Descriptors
import UdfRead.Fs

/-!
# UdfRead.Metadata

Reading metadata and the partition table returns on every input, and a buffer of metadata is as
long as the recorded length.
-/

namespace UdfRead

open CModel

section

variable {σ : Type} (I : BlockInput σ)

/-! ## Blocks -/

theorem readBlock_returns (lba : UInt32) :
    Proc.Returns (I.readBlock lba) fun r => ∀ buf, r = some buf → buf.length = 2048 := by
  intro s
  refine ⟨_, _, rfl, fun buf h => ?_⟩
  by_cases hc : (I.read lba 1 0 s).1.count = 1
  · rw [if_pos hc] at h
    rw [← Option.some.inj h, blockBytes_length]
  · rw [if_neg hc] at h
    cases h

theorem readDescriptorBlock_returns (lba : UInt32) :
    Proc.Returns (I.readDescriptorBlock lba) fun r => r.1 ≠ .invalid → r.2.length = 2048 := by
  refine (readBlock_returns I lba).bind fun r hr => ?_
  cases r with
  | none => exact Proc.returns_pure fun h => absurd rfl h
  | some buf =>
    have hlen := hr buf rfl
    obtain ⟨tag, htag⟩ := decodeDescriptorTag_ok (p := buf) (i := 0) (by omega)
    exact (Proc.returns_ofRes htag).bind fun _ _ => Proc.returns_pure fun _ => hlen

/-! ## Metadata -/

theorem readFirst_returns (p : Partition) (loc : LongAd) :
    Proc.Returns (readFirst I p loc) fun r => r.1 ≠ .invalid → r.2.length = 2048 := by
  refine (readDescriptorBlock_returns I _).bind fun r hr => ?_
  show Proc.Returns (if r.1 = .invalid ∧ p.mirrorLba ≠ 0 then _ else pure (r.1, r.2)) _
  split
  · exact readDescriptorBlock_returns I _
  · exact Proc.returns_pure hr

theorem readFollowing_returns (p : Partition) (loc : LongAd) (i : UInt32) :
    Proc.Returns (readFollowing I p loc i) fun r => ∀ buf, r = some buf → buf.length = 2048 := by
  refine (readBlock_returns I _).bind fun r hr => ?_
  cases r with
  | some buf => exact Proc.returns_pure hr
  | none =>
    show Proc.Returns (if p.mirrorLba ≠ 0 then _ else pure none) _
    split
    · exact readBlock_returns I _
    · exact Proc.returns_pure fun _ h => by cases h

theorem readFollowingLoop_returns (p : Partition) (loc : LongAd) (n : Nat) (i : UInt32)
    (buf : Bytes) :
    Proc.Returns (readFollowingLoop I p loc n i buf) fun r =>
      ∀ buf', r = some buf' → buf'.length = buf.length + 2048 * n := by
  induction n generalizing i buf with
  | zero =>
    refine Proc.returns_pure fun buf' h => ?_
    cases h
    rfl
  | succ n ih =>
    refine (readFollowing_returns I p loc i).bind fun r hr => ?_
    cases r with
    | none => exact Proc.returns_pure fun _ h => by cases h
    | some block =>
      refine (ih (i + 1) (buf ++ block)).mono fun r h buf' hbuf' => ?_
      rw [h buf' hbuf', List.length_append, hr block rfl]
      omega

theorem readMetadataBlocks_returns (part : UdfPartitions) (loc : LongAd) :
    Proc.Returns (readMetadataBlocks I part loc) fun r => ∀ tag buf, r = some (tag, buf) →
      buf.length = 2048 + 2048 * ((loc.length - 1) / 2048).toNat := by
  unfold readMetadataBlocks
  cases partitionOf part loc.partition with
  | none => exact Proc.returns_pure fun _ _ h => by cases h
  | some p =>
    refine (readFirst_returns I p loc).bind fun r hr => ?_
    obtain ⟨tag, buf⟩ := r
    by_cases htag : tag = .invalid
    · simp only [htag, if_true]
      exact Proc.returns_pure fun _ _ h => by cases h
    · simp only [htag, if_false]
      refine (readFollowingLoop_returns I p loc _ 1 buf).bind fun r' hr' => ?_
      cases r' with
      | none => exact Proc.returns_pure fun _ _ h => by cases h
      | some buf' =>
        refine Proc.returns_pure fun tag'' buf'' h => ?_
        cases h
        have hbuf : buf.length = 2048 := hr htag
        rw [hr' buf' rfl, hbuf]

/-- The number of blocks read is the number the buffer is made for. -/
theorem metadata_blocks {length : UInt32} (h : ¬ (length + 2048 - 1) / 2048 < 1) :
    length.toNat ≤ 2048 + 2048 * ((length - 1) / 2048).toNat := by
  have hpos := length_pos_of_blocks h
  rw [following_blocks hpos]
  omega

theorem readMetadata_returns (part : UdfPartitions) (icb : LongAd) :
    Proc.Returns (readMetadata I part icb) fun r =>
      ∀ tag buf, r = some (tag, buf) → icb.length.toNat ≤ buf.length ∧ 2048 ≤ buf.length := by
  unfold readMetadata
  by_cases hblocks : (icb.length + 2048 - 1) / 2048 < 1
  · rw [if_pos hblocks]
    exact Proc.returns_pure fun _ _ h => by cases h
  · rw [if_neg hblocks]
    have hlen := metadata_blocks hblocks
    refine (readMetadataBlocks_returns I part icb).mono fun r hr tag buf h => ?_
    have := hr tag buf h
    omega

/-! ## Metadata that is there -/

/-- The input serves the bytes of `buf` from block `lba` on, whenever it is asked for a block. -/
def BlocksAt (lba : UInt32) (buf : Bytes) : Prop :=
  ∀ k, 2048 * k < buf.length →
    Proc.Returns (I.readBlock (lba + UInt32.ofNat k)) fun r =>
      r = some ((buf.drop (2048 * k)).take 2048)

/-- The blocks of `loc` lie in a mapped partition and hold `buf`. -/
structure Placed (part : UdfPartitions) (loc : LongAd) (buf : Bytes) : Prop where
  nonempty : 1 ≤ loc.length.toNat
  bound : loc.length.toNat < 2 ^ 30
  length : buf.length = 2048 * ((loc.length.toNat + 2047) / 2048)
  blocks : ∃ p, partitionOf part loc.partition = some p ∧ BlocksAt I (p.lba + loc.lba) buf

variable {I}

theorem readFirst_placed {p : Partition} {loc : LongAd} {buf : Bytes}
    (h : BlocksAt I (p.lba + loc.lba) buf) (hbuf : 2048 ≤ buf.length)
    (htag : tagAt buf 0 ≠ .invalid) :
    Proc.Returns (readFirst I p loc) fun r => r = (tagAt buf 0, buf.take 2048) := by
  have hfirst := h 0 (by omega)
  rw [Nat.mul_zero, List.drop_zero, add_ofNat_zero] at hfirst
  have htake : decodeDescriptorTag (buf.take 2048) 0 = .ok (tagAt buf 0) := by
    rw [decodeDescriptorTag_eq (by simp; omega),
      agrees_tag (agrees_take (show 16 ≤ 2048 by omega)) (le_refl _)]
  have hblock : Proc.Returns (I.readDescriptorBlock (p.lba + loc.lba)) fun r =>
      r = (tagAt buf 0, buf.take 2048) := by
    refine hfirst.bind fun r hr => ?_
    subst hr
    refine (Proc.returns_ofRes htake).bind fun tag ht => ?_
    subst ht
    exact Proc.returns_pure rfl
  refine hblock.bind fun r hr => ?_
  subst hr
  simp only [htag, false_and, if_false]
  exact Proc.returns_pure rfl

theorem readFollowingLoop_placed {p : Partition} {loc : LongAd} {buf : Bytes}
    (h : BlocksAt I (p.lba + loc.lba) buf) (n i : Nat) (hlen : buf.length = 2048 * (i + n)) :
    Proc.Returns (readFollowingLoop I p loc n (UInt32.ofNat i) (buf.take (2048 * i))) fun r =>
      r = some buf := by
  induction n generalizing i with
  | zero =>
    rw [List.take_of_length_le (by omega)]
    exact Proc.returns_pure rfl
  | succ n ih =>
    have hblock : Proc.Returns (readFollowing I p loc (UInt32.ofNat i)) fun r =>
        r = some ((buf.drop (2048 * i)).take 2048) := by
      refine (h i (by omega)).bind fun r hr => ?_
      subst hr
      exact Proc.returns_pure rfl
    refine hblock.bind fun r hr => ?_
    subst hr
    have hnext := ih (i + 1) (by omega)
    rw [Nat.mul_succ, List.take_add, UInt32.ofNat_add] at hnext
    exact hnext

theorem readMetadata_placed {part : UdfPartitions} {loc : LongAd} {buf : Bytes}
    (h : Placed I part loc buf) (htag : tagAt buf 0 ≠ .invalid) :
    Proc.Returns (readMetadata I part loc) fun r => r = some (tagAt buf 0, buf) := by
  have hone := h.nonempty
  have hbound := h.bound
  have hlen := h.length
  obtain ⟨p, hp, hblocks⟩ := h.blocks
  have hsum : (loc.length + 2048 - 1).toNat = loc.length.toNat + 2047 := by
    rw [UInt32.toNat_sub_of_le _ _ (UInt32.le_iff_toNat_le.mpr (by
      rw [UInt32.toNat_add]; simp; omega)), UInt32.toNat_add]
    simp
    omega
  have hcount : ¬ (loc.length + 2048 - 1) / 2048 < 1 := by
    rw [UInt32.lt_iff_toNat_lt, UInt32.toNat_div, hsum]
    simp
    omega
  have hfollowing : ((loc.length - 1) / 2048).toNat = (loc.length.toNat - 1) / 2048 := by
    have hle : (1 : UInt32) ≤ loc.length := UInt32.le_iff_toNat_le.mpr hone
    rw [UInt32.toNat_div, UInt32.toNat_sub_of_le _ _ hle]
    rfl
  rw [readMetadata, if_neg hcount, readMetadataBlocks, hp]
  refine (readFirst_placed hblocks (by omega) htag).bind fun r hr => ?_
  subst hr
  simp only [htag, if_false]
  refine (readFollowingLoop_placed hblocks ((loc.length - 1) / 2048).toNat 1
    (by omega)).bind fun r hr => ?_
  subst hr
  exact Proc.returns_pure rfl

/-! ## Partition table -/

variable (I)

theorem mapMetadataCopy_returns (part : UdfPartitions) (lba : UInt32) (pd : PartitionDescriptor) :
    Proc.Returns (mapMetadataCopy I part lba pd) fun _ => True := by
  refine (readDescriptorBlock_returns I _).bind fun r hr => ?_
  obtain ⟨tag, buf⟩ := r
  show Proc.Returns (if tag ≠ .extendedFileEntry then pure part else _) _
  by_cases htag : tag = .extendedFileEntry
  · rw [if_neg (not_not_intro htag)]
    have hlen : buf.length = 2048 := hr fun h => by
      rw [show tag = _ from h] at htag
      cases htag
    refine (Proc.returns_ofRes (decodeExtFileEntry_eq hlen.ge)).bind fun fe _ => ?_
    cases fe with
    | none => exact Proc.returns_pure trivial
    | some fe =>
      simp only
      split
      · exact Proc.returns_pure trivial
      · exact Proc.returns_pure trivial
      · split
        · exact Proc.returns_pure trivial
        · split
          · exact Proc.returns_pure trivial
          · exact Proc.returns_pure trivial
  · rw [if_pos htag]
    exact Proc.returns_pure trivial

theorem mapMetadataPartition_returns (part : UdfPartitions) (lba mirrorLba : UInt32)
    (pd : PartitionDescriptor) :
    Proc.Returns (mapMetadataPartition I part lba mirrorLba pd) fun _ => True :=
  (mapMetadataCopy_returns I part lba pd).bind fun part _ =>
    (mapMetadataCopy_returns I part mirrorLba pd).bind fun _ _ => Proc.returns_pure trivial

theorem parsePartitionMap_returns (vds : VolumeDescriptorSet) (i map len : Nat)
    (part : UdfPartitions) (numType1 : Nat) (hlen : 2 ≤ len) (hmap : map + len ≤ 2048) :
    Proc.Returns (parsePartitionMap I vds i map len part numType1) fun _ => True := by
  have htable := vds.lvd.tableSize
  unfold parsePartitionMap
  refine (Proc.returns_ofRes (getU8_eq (by omega))).bind fun type _ => ?_
  split
  · split
    · exact Proc.returns_pure trivial
    · refine (Proc.returns_ofRes (getU16_eq (by omega))).bind fun ref _ => ?_
      split
      · exact Proc.returns_pure trivial
      · split
        · exact Proc.returns_pure trivial
        · exact Proc.returns_pure trivial
  · split
    · split
      · exact Proc.returns_pure trivial
      · obtain ⟨eid, heid⟩ := decodeEntityId_ok (p := vds.lvd.partitionMapTable) (i := map + 4)
          (by omega)
        refine (Proc.returns_ofRes heid).bind fun typeId _ => ?_
        split
        · exact Proc.returns_pure trivial
        · refine (Proc.returns_ofRes (getU16_eq (by omega))).bind fun ref _ => ?_
          refine (Proc.returns_ofRes (getU32_eq (by omega))).bind fun lba _ => ?_
          refine (Proc.returns_ofRes (getU32_eq (by omega))).bind fun mirrorLba _ => ?_
          refine (mapMetadataPartition_returns I part lba mirrorLba vds.pd).bind fun r _ => ?_
          simp only
          split
          · exact Proc.returns_pure trivial
          · exact Proc.returns_pure trivial
    · exact Proc.returns_pure trivial

/-- A map takes two bytes of the table or more, and the last two start no map. -/
theorem parsePartitionMapsLoop_returns (vds : VolumeDescriptorSet) (fuel i map : Nat)
    (part : UdfPartitions) (numType1 : Nat) (hfuel : 1 ≤ fuel) (hmap : 2048 ≤ 2 * fuel + map) :
    Proc.Returns (parsePartitionMapsLoop I vds fuel i map part numType1) fun _ => True := by
  induction fuel generalizing i map part numType1 with
  | zero => omega
  | succ fuel ih =>
    have htable := vds.lvd.tableSize
    rw [parsePartitionMapsLoop]
    have hend : min vds.lvd.partitionMapLableLength.toNat 2048 ≤ 2048 := Nat.min_le_right _ _
    generalize min vds.lvd.partitionMapLableLength.toNat 2048 = tableEnd at hend ⊢
    by_cases hloop : i < vds.lvd.numPartitionMaps.toNat ∧ map + 2 < tableEnd
    · rw [if_neg (not_not_intro hloop)]
      refine (Proc.returns_ofRes (getU8_eq (by omega))).bind fun len _ => ?_
      by_cases hlen : len < 2
      · rw [if_pos hlen]
        exact Proc.returns_pure trivial
      · have hlen' : 2 ≤ len.toNat := UInt32.le_iff_toNat_le.mp (UInt32.not_lt.mp hlen)
        rw [if_neg hlen]
        by_cases hfit : map + len.toNat > tableEnd
        · rw [if_pos hfit]
          exact Proc.returns_pure trivial
        · rw [if_neg hfit]
          refine (parsePartitionMap_returns I vds i map len.toNat part numType1 hlen'
            (by omega)).bind fun r _ => ?_
          cases r with
          | none => exact Proc.returns_pure trivial
          | some r => exact ih _ _ _ _ (by omega) (by omega)
    · rw [if_pos hloop]
      exact Proc.returns_pure trivial

theorem udfParsePartitionMaps_returns (vds : VolumeDescriptorSet) (part : UdfPartitions) :
    Proc.Returns (udfParsePartitionMaps I vds part) fun _ => True :=
  (parsePartitionMapsLoop_returns I vds 1024 0 0 part 0 (by omega) (by omega)).bind fun _ _ =>
    Proc.returns_pure trivial

end

/-! ## A small image -/

/-- A single partition from block 0 on. -/
def onePartition : UdfPartitions where
  numPartition := 1
  p0 := { number := 0, lba := 0, mirrorLba := 0 }
  p1 := { number := 0, lba := 0, mirrorLba := 0 }

/-- A file entry of two blocks. Its first descriptor is recorded, its second one points at an
allocation extent in block 200. -/
def twoBlockEntry : Nat → UInt8
  | 0 => 5
  | 1 => 1
  | 4 => 6
  | 20 => 4
  | 27 => 5
  | 57 => 16
  | 172 => 16
  | 177 => 8
  | 180 => 100
  | 185 => 8
  | 187 => 192
  | 188 => 200
  | _ => 0

def twoBlockIcb : LongAd := { lba := 16, length := 2048, partition := 0, extentType := 0 }

/-- An allocation extent with one short descriptor. -/
def oneAdExtent : Nat → UInt8
  | 0 => 2
  | 1 => 1
  | 4 => 3
  | 20 => 8
  | _ => 0

end UdfRead
