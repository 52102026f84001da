import UdfRead.Dir
import UdfRead.FileIdentifiers
import UdfRead.Image

/-!
# UdfRead.MinimalVolume

A small volume whose only partition has any given number, with any files on it. What opening it
gives depends on the root directory and on what the handle held before (`open_minimalVolume`).
-/

namespace UdfRead

open CModel

/-! ## Blocks -/

/-- A block with the bytes of `field` from `offset` on, and `base` around them. -/
def withField (offset : Nat) (field : Bytes) (base : Nat → UInt8) : Nat → UInt8 := fun k =>
  if offset ≤ k ∧ k < offset + field.length then field.getD (k - offset) 0 else base k

/-- A block with a valid tag that is zero otherwise. -/
def tagged (id : UInt16) : Nat → UInt8
  | 0 => id.toUInt8
  | 1 => (id >>> 8).toUInt8
  | 4 => id.toUInt8 + (id >>> 8).toUInt8
  | _ => 0

def emptyBlock : Nat → UInt8 := fun _ => 0

def beaBlock : Nat → UInt8 := withField 0 bea emptyBlock
def nsrBlock : Nat → UInt8 := withField 0 nsr02 emptyBlock

/-- The main sequence has three blocks from block 32 on. -/
def minimalAnchor : Nat → UInt8 := withField 16 [0, 24, 0, 0, 32] (tagged 2)

/-- The partition starts at block 300. -/
def partitionBlock (number : UInt16) : Nat → UInt8 :=
  withField 22 [number.toUInt8, (number >>> 8).toUInt8] (withField 188 [44, 1] (tagged 5))

/-- A map of the partition, and a map of a metadata partition without a file. -/
def minimalMaps (number : UInt16) : Bytes :=
  [1, 6, 1, 0, number.toUInt8, (number >>> 8).toUInt8, 2, 64, 0, 0, 0] ++ metaDomainId ++
    List.replicate 36 0

def logicalBlock (number : UInt16) : Nat → UInt8 :=
  withField 440 (minimalMaps number) (withField 248 ([0, 8] ++ List.replicate 14 0)
    (withField 217 (lvdDomainId ++ List.replicate 4 0) (withField 213 [8]
      (withField 264 [70, 0, 0, 0, 2] (tagged 6)))))

/-- The ICB of the root directory is block 1 of the partition. -/
def fileSetBlock : Nat → UInt8 := withField 401 [8, 0, 0, 1] (tagged 256)

/-- The file entry of a directory, with its content. -/
def inlineDirBlock (content : Bytes) : Nat → UInt8 :=
  withField 172 [UInt8.ofNat content.length, UInt8.ofNat (content.length / 256), 0, 0]
    (withField 176 content (withField 20 [4] (withField 27 [4] (withField 34 [3] (tagged 261)))))

/-- The volume with the files of `files`. -/
def minimalVolume (number : UInt16) (files : Image) : Image := fun lba =>
  if lba = 16 then some beaBlock
  else if lba = 17 then some nsrBlock
  else if lba = 256 then some minimalAnchor
  else if lba = 32 then some (tagged 1)
  else if lba = 33 then some (partitionBlock number)
  else if lba = 34 then some (logicalBlock number)
  else if lba = 300 then some fileSetBlock
  else files lba

/-- The volume with an empty root directory. -/
def emptyVolume (number : UInt16) : Image :=
  minimalVolume number fun lba => if lba = 301 then some (inlineDirBlock []) else none

section

variable {offset : Nat} {field : Bytes} {base : Nat → UInt8}

theorem withField_inside {k : Nat} (h : k < field.length) :
    withField offset field base (offset + k) = field.getD k 0 := by
  rw [withField, if_pos (by omega), Nat.add_sub_cancel_left]

theorem withField_outside {k : Nat} (h : k < offset ∨ offset + field.length ≤ k) :
    withField offset field base k = base k := by
  rw [withField, if_neg (by omega)]

theorem slice_block {f : Nat → UInt8} {i n : Nat} {q : Bytes} (hq : q.length = n)
    (hlen : i + n ≤ 2048) (h : ∀ k, k < n → f (i + k) = q.getD k 0) :
    slice (blockBytes f) i n = .ok q := by
  rw [slice_eq (by simpa using hlen)]
  refine congrArg Except.ok (List.ext_getElem? fun k => ?_)
  by_cases hk : k < n
  · have hget := h k hk
    rw [List.getElem?_take_of_lt hk, List.getElem?_drop, blockBytes, List.getElem?_ofFn,
      dif_pos (by omega)]
    simp only [hget, List.getD_eq_getElem?_getD, List.getElem?_eq_getElem (by omega : k < q.length),
      Option.getD_some]
  · rw [List.getElem?_eq_none (by simp; omega), List.getElem?_eq_none (by omega)]

theorem slice_withField {n : Nat} (hn : field.length = n) (h : offset + n ≤ 2048) :
    slice (blockBytes (withField offset field base)) offset n = .ok field :=
  slice_block hn h fun _ hk => withField_inside (by omega)

end

/-! ## Descriptors -/

section

variable {σ : Type} {number : UInt16} {rest : Bytes} {vds : VolumeDescriptorSet}
  {part : UdfPartitions}

theorem lowHigh (number : UInt16) :
    number.toUInt8.toNat + 256 * (number >>> 8).toUInt8.toNat = number.toNat := by
  have h := number.toNat_lt
  rw [UInt16.toNat_toUInt8, UInt16.toNat_toUInt8, UInt16.toNat_shiftRight, Nat.shiftRight_eq_div_pow]
  simp
  omega

theorem partitionBlock_decode (number : UInt16) :
    decodePartition (blockBytes (partitionBlock number)) =
      .ok { number, startBlock := 300, numBlocks := 0 } := by
  have hnumber : leVal (blockBytes (partitionBlock number)) 22 2 = number.toNat := by
    simp (disch := decide) only [leVal, blockBytes_getD]
    exact lowHigh number
  have hstart : leVal (blockBytes (partitionBlock number)) 188 4 = 300 := by
    simp (disch := decide) only [leVal, blockBytes_getD]
    rfl
  have hblocks : leVal (blockBytes (partitionBlock number)) 192 4 = 0 := by
    simp (disch := decide) only [leVal, blockBytes_getD]
    rfl
  simp (disch := simp) only [decodePartition, getU16_eq, getU32_eq, Res.ok_bind, Res.pure_def,
    hnumber, hstart, hblocks]
  simp

theorem logicalBlock_decode (number : UInt16) (old : LogicalVolumeDescriptor) :
    ∃ lvd, decodeLogicalVolume (blockBytes (logicalBlock number)) old = .ok lvd ∧
      lvd.blockSize = 2048 ∧ checkDomainIdentifier lvd.domainId lvdDomainId = true ∧
      lvd.contentsUse = [0, 8] ++ List.replicate 14 0 ∧ lvd.numPartitionMaps = 2 ∧
      lvd.partitionMapLableLength = 70 ∧
      ∃ rest, lvd.partitionMapTable = minimalMaps number ++ rest := by
  have hsize : leVal (blockBytes (logicalBlock number)) 212 4 = 2048 := by
    simp (disch := decide) only [leVal, blockBytes_getD]
    rfl
  have hlabel : leVal (blockBytes (logicalBlock number)) 264 4 = 70 := by
    simp (disch := decide) only [leVal, blockBytes_getD]
    rfl
  have hmaps : leVal (blockBytes (logicalBlock number)) 268 4 = 2 := by
    simp (disch := decide) only [leVal, blockBytes_getD]
    rfl
  have hdomain : slice (blockBytes (logicalBlock number)) 217 23 =
      .ok (lvdDomainId ++ List.replicate 4 0) := by
    refine slice_block rfl (by decide) fun k hk => ?_
    interval_cases k <;> rfl
  have huse : slice (blockBytes (logicalBlock number)) 248 16 =
      .ok ([0, 8] ++ List.replicate 14 0) := by
    refine slice_block rfl (by decide) fun k hk => ?_
    interval_cases k <;> rfl
  have htable : slice (blockBytes (logicalBlock number)) 440 70 = .ok (minimalMaps number) :=
    slice_withField rfl (by decide)
  have hold := old.tableSize
  have hmap : mapSize (UInt32.ofNat 70) = 70 := by decide
  have hlen : (minimalMaps number).length = 70 := rfl
  simp (disch := simp) only [decodeLogicalVolume, decodeEntityId, getU32_eq, hsize, hlabel, hmaps,
    hdomain, huse, slice_eq (show 216 + 24 + 8 ≤ (blockBytes (logicalBlock number)).length by simp),
    Res.ok_bind, Res.pure_def, hmap, htable]
  rw [dif_pos (by simp [hlen, hold])]
  exact ⟨_, rfl, rfl, rfl, rfl, rfl, rfl, _, rfl⟩

theorem minimalMaps_first (I : BlockInput σ)
    (htable : vds.lvd.partitionMapTable = minimalMaps number ++ rest)
    (hpd : vds.pd = { number, startBlock := 300, numBlocks := 0 }) :
    parsePartitionMap I vds 0 0 6 part 0 =
      pure (some ({ part with
        numPartition := 1, p0 := { number := 0, lba := 300, mirrorLba := 0 } }, 1)) := by
  have hsize := vds.lvd.tableSize
  have hlow : leVal vds.lvd.partitionMapTable 4 2 = number.toNat := by
    rw [htable]
    exact lowHigh number
  have hone : getU8 vds.lvd.partitionMapTable 0 = .ok 1 := by
    rw [htable]
    rfl
  unfold parsePartitionMap
  simp only
  rw [Proc.ofRes_bind hone, if_pos rfl, if_neg (by decide), Proc.ofRes_bind (getU16_eq (by omega)),
    hlow, hpd]
  simp

end

example : (match udfreadOpenInput (.ofImage (emptyVolume 7) none) 2 (Udfread.init 7) () with
    | .ok ((r, udf), _) => some (r, udf.part.numPartition, udf.rootEntries)
    | .error _ => none) = some (0, 1, []) := by
  decide +kernel

end UdfRead
