import UdfRead.BlockInput

/-!
# UdfRead.Volume

`udf_volume.c`: probing, the volume descriptor sequence, and the partition table. A failing
function returns `none` (or the code -1 beside what it has changed) and does not trap.
-/

namespace UdfRead

open CModel

section

variable {σ : Type}

/-- `lvd_domain_id`: `*OSTA UDF Compliant`. -/
def lvdDomainId : Bytes :=
  [0x2a, 0x4f, 0x53, 0x54, 0x41, 0x20, 0x55, 0x44, 0x46, 0x20, 0x43, 0x6f, 0x6d, 0x70, 0x6c, 0x69,
   0x61, 0x6e, 0x74]

/-- `meta_domain_id`: `*UDF Metadata Partition`. -/
def metaDomainId : Bytes :=
  [0x2a, 0x55, 0x44, 0x46, 0x20, 0x4d, 0x65, 0x74, 0x61, 0x64, 0x61, 0x74, 0x61, 0x20, 0x50, 0x61,
   0x72, 0x74, 0x69, 0x74, 0x69, 0x6f, 0x6e]

/-- `_check_domain_identifier(eid, value) == 0`. -/
def checkDomainIdentifier (eid : EntityId) (value : Bytes) : Bool :=
  eid.identifier.take value.length == value

/-! ## Disc probing -/

def bea : Bytes := [0, 0x42, 0x45, 0x41, 0x30, 0x31, 1]
def nsr02 : Bytes := [0, 0x4e, 0x53, 0x52, 0x30, 0x32, 1]
def nsr03 : Bytes := [0, 0x4e, 0x53, 0x52, 0x30, 0x33, 1]
def tea : Bytes := [0, 0x54, 0x45, 0x41, 0x30, 0x31, 1]

/-- The loop of `udf_probe_volume` over the `n` blocks from `lba` on. -/
def probeLoop (I : BlockInput σ) : (n : Nat) → (lba : UInt32) → (beaSeen : Bool) → Proc σ Bool
  | 0, _, _ => pure false
  | n + 1, lba, beaSeen => do
    match ← I.readBlock lba with
    | none => probeLoop I n (lba + 1) beaSeen
    | some buf =>
      let id := buf.take 7
      if id = tea then return false
      if id = List.replicate 7 0 then return false
      let beaSeen := beaSeen || id == bea
      if beaSeen ∧ (id = nsr02 ∨ id = nsr03) then return true
      probeLoop I n (lba + 1) beaSeen

def udfProbeVolume (I : BlockInput σ) : Proc σ Bool := probeLoop I (256 - 16) 16 false

/-! ## Volume descriptor sequence -/

/-- `_read_avdp`: block 256, the last block, or the last block - 256. -/
def readAvdp (I : BlockInput σ) : Proc σ (Option AnchorVolumeDescriptor) := do
  let (tag, buf) ← I.readDescriptorBlock 256
  if tag = .anchorVolumeDescriptorPointer then return some (← Proc.ofRes (decodeAvdp buf))
  match I.size with
  | none => return none
  | some size =>
    let n ← fun s => .ok (size s)
    let (tag, buf) ← I.readDescriptorBlock (n - 1)
    if tag = .anchorVolumeDescriptorPointer then return some (← Proc.ofRes (decodeAvdp buf))
    let (tag, buf) ← I.readDescriptorBlock (n - 1 - 256)
    if tag = .anchorVolumeDescriptorPointer then return some (← Proc.ofRes (decodeAvdp buf))
    return none

structure VolumeDescriptorSet where
  pd : PartitionDescriptor
  pvd : PrimaryVolumeDescriptor
  lvd : LogicalVolumeDescriptor

/-- `memset(vds, 0, sizeof(*vds))`. -/
def VolumeDescriptorSet.zero : VolumeDescriptorSet where
  pd := { number := 0, startBlock := 0, numBlocks := 0 }
  pvd := { volumeIdentifier := [], volumeIdentifierLength := 0,
           volumeSetIdentifier := List.replicate 128 0 }
  lvd := { blockSize := 0
           domainId := { identifier := List.replicate 23 0, identifierSuffix := List.replicate 8 0 }
           contentsUse := List.replicate 16 0
           numPartitionMaps := 0
           partitionMapLableLength := 0
           partitionMapTable := List.replicate 2048 0
           tableSize := List.length_replicate }

/-- The `VDS_HAVE_*` mask. -/
structure VdsMask where
  part : Bool
  pvd : Bool
  lvd : Bool
  deriving DecidableEq, Repr

namespace VdsMask

def none : VdsMask := { part := false, pvd := false, lvd := false }

/-- `(found_mask & VDS_HAVE_ALL) == VDS_HAVE_ALL`. -/
def haveAll (m : VdsMask) : Bool := m.part && m.pvd && m.lvd

/-- `(found_mask & VDS_HAVE_REQUIRED) == VDS_HAVE_REQUIRED`. -/
def haveRequired (m : VdsMask) : Bool := m.part && m.pvd

end VdsMask

/-- `UDFREAD_PARTITION_FIRST` and `UDFREAD_PARTITION_LAST`; other selections are numbers. -/
def partitionFirst : Int := -1
def partitionLast : Int := -2

/-- One block of the sequence that does not end the scan: the `switch` on its tag. -/
def takeDescriptor (partNumber : Int) (tag : TagIdentifier) (buf : Bytes) (m : VdsMask)
    (vds : VolumeDescriptorSet) : Res (VdsMask × VolumeDescriptorSet) :=
  match tag with
  | .primaryVolumeDescriptor => do
    let pvd ← decodePrimaryVolume buf
    return ({ m with pvd := true }, { vds with pvd })
  | .logicalVolumeDescriptor => do
    let lvd ← decodeLogicalVolume buf vds.lvd
    return ({ m with lvd := true }, { vds with lvd })
  | .partitionDescriptor =>
    if !m.part || partNumber = partitionLast then do
      let pd ← decodePartition buf
      let part := m.part || decide (partNumber < 0 ∨ partNumber = (pd.number.toNat : Int))
      return ({ m with part }, { vds with pd })
    else .ok (m, vds)
  | _ => .ok (m, vds)

/-- How the scan of one extent ends: with a result, or at a Volume Descriptor Pointer. -/
inductive ScanEnd where
  | done (m : VdsMask) (vds : VolumeDescriptorSet)
  | next (loc : ExtentAd) (m : VdsMask) (vds : VolumeDescriptorSet)

/-- The `for` loop of `_search_vds` over the `n` blocks from `lba` on. -/
def scanExtent (I : BlockInput σ) (partNumber : Int) :
    (n : Nat) → (lba : UInt32) → VdsMask → VolumeDescriptorSet → Proc σ ScanEnd
  | 0, _, m, vds => pure (.done m vds)
  | n + 1, lba, m, vds => do
    let (tag, buf) ← I.readDescriptorBlock lba
    if tag = .volumeDescriptorPointer then
      let loc ← Proc.ofRes (decodeVdp buf)
      return .next loc m vds
    else if tag = .terminatingDescriptor then return .done m vds
    else
      let (m, vds) ← Proc.ofRes (takeDescriptor partNumber tag buf m vds)
      if m.haveAll ∧ partNumber ≠ partitionLast then return .done m vds
      scanExtent I partNumber n (lba + 1) m vds

/-- The number of blocks from `loc->lba` up to `end_lba`, which is a 32-bit sum. -/
def extentBlocks (loc : ExtentAd) : Nat := (loc.lba + loc.length / 2048).toNat - loc.lba.toNat

/-- `_search_vds`: each Volume Descriptor Pointer (`goto next_extent`) takes one unit of fuel. -/
def searchVds (I : BlockInput σ) (partNumber : Int) :
    (fuel : Nat) → ExtentAd → VdsMask → VolumeDescriptorSet →
      Proc σ (VdsMask × VolumeDescriptorSet)
  | 0, _, _, _ => Proc.ofRes (.error .outOfFuel)
  | fuel + 1, loc, m, vds => do
    match ← scanExtent I partNumber (extentBlocks loc) loc.lba m vds with
    | .done m vds => return (m, vds)
    | .next loc m vds => searchVds I partNumber fuel loc m vds

def udfReadVds (I : BlockInput σ) (fuel : Nat) (partNumber : Int) :
    Proc σ (Option VolumeDescriptorSet) := do
  match ← readAvdp I with
  | none => return none
  | some avdp =>
    let (m, vds) ← searchVds I partNumber fuel avdp.mvds VdsMask.none .zero
    if m.haveAll then return some vds
    let (m, vds) ← searchVds I partNumber fuel avdp.rvds m vds
    if m.haveRequired then return some vds
    return none

/-- `udf_validate_logical_volume`: the location of the File Set Descriptor. -/
def udfValidateLogicalVolume (lvd : LogicalVolumeDescriptor) : Res (Option LongAd) :=
  if lvd.blockSize ≠ 2048 then .ok none
  else if !checkDomainIdentifier lvd.domainId lvdDomainId then .ok none
  else do return some (← decodeLongAd lvd.contentsUse 0)

/-! ## Partitions -/

/-- One `p[i]` of `struct udf_partitions`. -/
structure Partition where
  number : UInt16
  lba : UInt32
  mirrorLba : UInt32
  deriving DecidableEq, Repr

/-- `struct udf_partitions`. -/
structure UdfPartitions where
  numPartition : UInt32
  p0 : Partition
  p1 : Partition
  deriving DecidableEq, Repr

def UdfPartitions.zero : UdfPartitions where
  numPartition := 0
  p0 := { number := 0, lba := 0, mirrorLba := 0 }
  p1 := { number := 0, lba := 0, mirrorLba := 0 }

/-- `UDF_FT_METADATA` and `UDF_FT_METADATA_MIRROR`. -/
def fileTypeMetadata : UInt8 := 250
def fileTypeMetadataMirror : UInt8 := 251

/-- One turn of the loop in `_map_metadata_partition`: the file entry at block `lba` of the
partition. Which location it sets depends on the file type only. -/
def mapMetadataCopy (I : BlockInput σ) (part : UdfPartitions) (lba : UInt32)
    (pd : PartitionDescriptor) : Proc σ UdfPartitions := do
  let (tag, buf) ← I.readDescriptorBlock (pd.startBlock + lba)
  if tag ≠ .extendedFileEntry then return part
  match ← Proc.ofRes (decodeExtFileEntry buf 2048 pd.number) with
  | none => return part
  | some fe =>
    match fe.u with
    | .data _ => return part
    | .ads _ [] => return part
    | .ads _ (ad :: _) =>
      if fe.fileType = fileTypeMetadata then
        return { part with p1 := { part.p1 with lba := pd.startBlock + ad.lba } }
      else if fe.fileType = fileTypeMetadataMirror then
        return { part with p1 := { part.p1 with mirrorLba := pd.startBlock + ad.lba } }
      else return part

/-- `_map_metadata_partition`; the flag is the return value 0. -/
def mapMetadataPartition (I : BlockInput σ) (part : UdfPartitions) (lba mirrorLba : UInt32)
    (pd : PartitionDescriptor) : Proc σ (Bool × UdfPartitions) := do
  let part ← mapMetadataCopy I part lba pd
  let part ← mapMetadataCopy I part mirrorLba pd
  -- failed reading primary location, must use mirror
  let part :=
    if part.p1.lba = 0 ∧ part.p1.mirrorLba ≠ 0 then
      { part with p1 := { part.p1 with lba := part.p1.mirrorLba, mirrorLba := 0 } }
    else part
  return (part.p1.lba ≠ 0, part)

/-- What the loop of `udf_parse_partition_maps` does with map number `i` at index `map`: the new
table and count of type 1 partitions, or `none` for a `break`. -/
def parsePartitionMap (I : BlockInput σ) (vds : VolumeDescriptorSet) (i map len : Nat)
    (part : UdfPartitions) (numType1 : Nat) : Proc σ (Option (UdfPartitions × Nat)) := do
  let table := vds.lvd.partitionMapTable
  let type ← Proc.ofRes (getU8 table map)
  if type = 1 then
    if len ≠ 6 then return none
    let ref ← Proc.ofRes (getU16 table (map + 4))
    if numType1 ≠ 0 then return some (part, numType1)
    if ref ≠ vds.pd.number.toUInt32 then return some (part, numType1)
    return some ({ part with
      numPartition := 1
      p0 := { number := UInt16.ofNat i, lba := vds.pd.startBlock, mirrorLba := 0 } },
      numType1 + 1)
  else if type = 2 then
    if len ≠ 64 then return none
    let typeId ← Proc.ofRes (decodeEntityId table (map + 4))
    if !checkDomainIdentifier typeId metaDomainId then return some (part, numType1)
    let _ref ← Proc.ofRes (getU16 table (map + 38))
    let lba ← Proc.ofRes (getU32 table (map + 40))
    let mirrorLba ← Proc.ofRes (getU32 table (map + 44))
    let (found, part) ← mapMetadataPartition I part lba mirrorLba vds.pd
    if !found then return some (part, numType1)
    return some ({ part with
      numPartition := 2, p1 := { part.p1 with number := UInt16.ofNat i } }, numType1)
  else return some (part, numType1)

/-- The loop of `udf_parse_partition_maps` from map number `i` at index `map` on. A map takes two
bytes of the table or more, so the fuel given below is never used up. -/
def parsePartitionMapsLoop (I : BlockInput σ) (vds : VolumeDescriptorSet) :
    (fuel i map : Nat) → UdfPartitions → (numType1 : Nat) → Proc σ (UdfPartitions × Nat)
  | 0, _, _, _, _ => Proc.ofRes (.error .outOfFuel)
  | fuel + 1, i, map, part, numType1 => do
    let tableEnd := min vds.lvd.partitionMapLableLength.toNat 2048
    if ¬ (i < vds.lvd.numPartitionMaps.toNat ∧ map + 2 < tableEnd) then
      return (part, numType1)
    let len ← Proc.ofRes (getU8 vds.lvd.partitionMapTable (map + 1))
    if len < 2 then return (part, numType1)
    if map + len.toNat > tableEnd then return (part, numType1)
    match ← parsePartitionMap I vds i map len.toNat part numType1 with
    | none => return (part, numType1)
    | some (part, numType1) =>
      parsePartitionMapsLoop I vds fuel (i + 1) (map + len.toNat) part numType1

/-- `udf_parse_partition_maps`; the flag is the return value 0. -/
def udfParsePartitionMaps (I : BlockInput σ) (vds : VolumeDescriptorSet) (part : UdfPartitions) :
    Proc σ (Bool × UdfPartitions) := do
  let (part, numType1) ← parsePartitionMapsLoop I vds 1024 0 0 part 0
  return (numType1 ≠ 0, part)

end

end UdfRead
