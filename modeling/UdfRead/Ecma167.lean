import UdfRead.Lib.Bytes

/-!
# UdfRead.Ecma167

`ecma167.c`: the descriptors of the volume and file structure and their decoders. A pointer into
a buffer is the buffer with an index. Reads and stores are checked: outside of the buffer, or of
the array the C code allocated, they trap.
-/

namespace UdfRead

open CModel

/-! ## Part 1: General -/

/-- `_decode_dstring`: the bytes copied out of a fixed-length dstring, and their number. -/
def decodeDstring (p : Bytes) (i fieldLength : Nat) : Res (Bytes × UInt8) :=
  if fieldLength < 1 then .ok ([], 0)
  else do
    let length ← getU8 p (i + (fieldLength - 1))
    let length := if length.toNat > fieldLength - 1 then fieldLength - 1 else length.toNat
    let str ← slice p i length
    return (str, UInt8.ofNat length)

structure ExtentAd where
  lba : UInt32
  length : UInt32
  deriving DecidableEq, Repr

def decodeExtentAd (p : Bytes) (i : Nat) : Res ExtentAd := do
  let length ← getU32 p i
  let lba ← getU32 p (i + 4)
  return { lba, length }

structure EntityId where
  identifier : Bytes
  identifierSuffix : Bytes
  deriving DecidableEq, Repr

def decodeEntityId (p : Bytes) (i : Nat) : Res EntityId := do
  let identifier ← slice p (i + 1) 23
  let identifierSuffix ← slice p (i + 24) 8
  return { identifier, identifierSuffix }

/-! ## Part 3: Volume structure -/

/-- `enum tag_identifier`. `invalid` is the `-1` of a failed checksum (and of a failed read);
`other` is a number without a name in the enumeration. -/
inductive TagIdentifier where
  | invalid
  | primaryVolumeDescriptor
  | anchorVolumeDescriptorPointer
  | volumeDescriptorPointer
  | partitionDescriptor
  | logicalVolumeDescriptor
  | terminatingDescriptor
  | fileSetDescriptor
  | fileIdentifierDescriptor
  | allocationExtentDescriptor
  | fileEntry
  | extendedFileEntry
  | other (id : UInt32)
  deriving DecidableEq, Repr

def TagIdentifier.ofId (id : UInt32) : TagIdentifier :=
  if id = 1 then .primaryVolumeDescriptor
  else if id = 2 then .anchorVolumeDescriptorPointer
  else if id = 3 then .volumeDescriptorPointer
  else if id = 5 then .partitionDescriptor
  else if id = 6 then .logicalVolumeDescriptor
  else if id = 8 then .terminatingDescriptor
  else if id = 256 then .fileSetDescriptor
  else if id = 257 then .fileIdentifierDescriptor
  else if id = 258 then .allocationExtentDescriptor
  else if id = 261 then .fileEntry
  else if id = 266 then .extendedFileEntry
  else .other id

/-- The sum of the tag's bytes, byte 4 (the recorded checksum) left out. -/
def tagChecksum (buf : Bytes) (i : Nat) : Res UInt8 :=
  [0, 1, 2, 3, 5, 6, 7, 8, 9, 10, 11, 12, 13, 14, 15].foldlM
    (fun checksum k => do return checksum + (← byteAt buf (i + k))) 0

def decodeDescriptorTag (buf : Bytes) (i : Nat) : Res TagIdentifier := do
  let id ← getU16 buf i
  let checksum ← tagChecksum buf i
  let recorded ← byteAt buf (i + 4)
  if checksum ≠ recorded then return .invalid
  return TagIdentifier.ofId id

structure PrimaryVolumeDescriptor where
  volumeIdentifier : Bytes
  volumeIdentifierLength : UInt8
  volumeSetIdentifier : Bytes
  deriving DecidableEq, Repr

def decodePrimaryVolume (p : Bytes) : Res PrimaryVolumeDescriptor := do
  let (volumeIdentifier, volumeIdentifierLength) ← decodeDstring p 24 32
  let volumeSetIdentifier ← slice p 72 128
  return { volumeIdentifier, volumeIdentifierLength, volumeSetIdentifier }

structure AnchorVolumeDescriptor where
  mvds : ExtentAd
  rvds : ExtentAd
  deriving DecidableEq, Repr

def decodeAvdp (p : Bytes) : Res AnchorVolumeDescriptor := do
  let mvds ← decodeExtentAd p 16
  let rvds ← decodeExtentAd p 24
  return { mvds, rvds }

/-- `decode_vdp`: the next extent of the descriptor sequence. -/
def decodeVdp (p : Bytes) : Res ExtentAd := decodeExtentAd p 20

structure PartitionDescriptor where
  number : UInt16
  startBlock : UInt32
  numBlocks : UInt32
  deriving DecidableEq, Repr

def decodePartition (p : Bytes) : Res PartitionDescriptor := do
  let number ← getU16 p 22
  let startBlock ← getU32 p 188
  let numBlocks ← getU32 p 192
  return { number := number.toUInt16, startBlock, numBlocks }

/-- `partitionMapTable` is the fixed array `partition_map_table[2048]`. -/
structure LogicalVolumeDescriptor where
  blockSize : UInt32
  domainId : EntityId
  contentsUse : Bytes
  numPartitionMaps : UInt32
  partitionMapLableLength : UInt32
  partitionMapTable : Bytes
  tableSize : partitionMapTable.length = 2048

/-- The bytes of the partition map table that `decode_logical_volume` copies: the recorded
length, clamped to the table and to what is left of the block. -/
def mapSize (lableLength : UInt32) : Nat := min (min lableLength.toNat 2048) (2048 - 440)

/-- `decode_logical_volume`. The table keeps its old bytes behind the copied ones. -/
def decodeLogicalVolume (p : Bytes) (old : LogicalVolumeDescriptor) :
    Res LogicalVolumeDescriptor := do
  let blockSize ← getU32 p 212
  let domainId ← decodeEntityId p 216
  let contentsUse ← slice p 248 16
  let partitionMapLableLength ← getU32 p 264
  let numPartitionMaps ← getU32 p 268
  let table ← slice p 440 (mapSize partitionMapLableLength)
  let table := table ++ old.partitionMapTable.drop table.length
  if h : table.length = 2048 then
    return { blockSize, domainId, contentsUse, numPartitionMaps, partitionMapLableLength,
             partitionMapTable := table, tableSize := h }
  else .error .outOfBounds

/-! ## Part 4: File structure -/

/-- `struct long_ad`. -/
structure LongAd where
  lba : UInt32
  length : UInt32
  partition : UInt16
  extentType : UInt8
  deriving DecidableEq, Repr

namespace LongAd

/-- `ECMA_AD_EXTENT_NORMAL`: allocated and recorded file data. -/
def extentNormal : UInt8 := 0

/-- `ECMA_AD_EXTENT_AD`: pointer to the next extent of allocation descriptors. -/
def extentAd : UInt8 := 3

end LongAd

/-- The common part of the three decoders: they differ in where the block address stands and in
where the partition number comes from. -/
def decodeAd (p : Bytes) (i lbaAt : Nat) (partition : Res UInt16) : Res LongAd := do
  let u32 ← getU32 p i
  let lba ← getU32 p (i + lbaAt)
  let partition ← partition
  return { lba, length := u32 &&& 0x3fffffff, partition, extentType := (u32 >>> 30).toUInt8 }

def decodeShortAd (p : Bytes) (i : Nat) (partition : UInt16) : Res LongAd :=
  decodeAd p i 4 (.ok partition)

def decodeLongAd (p : Bytes) (i : Nat) : Res LongAd :=
  decodeAd p i 4 (do return (← getU16 p (i + 8)).toUInt16)

def decodeExtendedAd (p : Bytes) (i : Nat) : Res LongAd :=
  decodeAd p i 12 (do return (← getU16 p (i + 16)).toUInt16)

/-- `decode_file_set_descriptor`: the root directory's ICB. -/
def decodeFileSetDescriptor (p : Bytes) : Res LongAd := decodeLongAd p 400

/-- `CHAR_FLAG_*`. -/
def charFlagDir : UInt8 := 0x02
def charFlagDeleted : UInt8 := 0x04
def charFlagParent : UInt8 := 0x08

structure FileIdentifier where
  icb : LongAd
  characteristic : UInt8
  filename : Bytes
  deriving DecidableEq, Repr

/-- `decode_file_identifier`: the identifier and the bytes it takes, padded to dwords; `none` is
the return value 0. `filename` holds `filename_len` bytes of the array `filename[256]`. -/
def decodeFileIdentifier (p : Bytes) (i size : Nat) : Res (Option (FileIdentifier × Nat)) :=
  if size < 38 then .ok none
  else do
    let characteristic ← getU8 p (i + 18)
    let filenameLen ← getU8 p (i + 19)
    let icb ← decodeLongAd p (i + 20)
    let lIu ← getU16 p (i + 36)
    if size < 38 + lIu.toNat + filenameLen.toNat then return none
    let filename ←
      if filenameLen = 0 then .ok [] else slice p (i + 38 + lIu.toNat) filenameLen.toNat
    -- the terminator is stored behind the name
    if 256 ≤ filename.length then .error .outOfBounds
    else return some ({ icb, characteristic := characteristic.toUInt8, filename },
      4 * ((38 + filenameLen.toNat + lIu.toNat + 3) / 4))

/-! ### Allocation descriptors of a file entry -/

/-- Descriptor formats 0, 1 and 2 of the ICB flags. -/
inductive AdType where
  | short
  | long
  | extended
  deriving DecidableEq, Repr

namespace AdType

def size : AdType → Nat
  | short => 8
  | long => 16
  | extended => 20

def decode (t : AdType) (p : Bytes) (i : Nat) (partition : UInt16) : Res LongAd :=
  match t with
  | short => decodeShortAd p i partition
  | long => decodeLongAd p i
  | extended => decodeExtendedAd p i

end AdType

/-- Store the next descriptor in an array with room for `cap` of them. -/
def storeAd (cap : Nat) (ad : List LongAd) (d : LongAd) : Res (List LongAd) :=
  if ad.length < cap then .ok (ad ++ [d]) else .error .outOfBounds

/-- `_decode_file_ads`: decode `n` descriptors from index `i` on and store them behind `ad`. -/
def decodeFileAds (p : Bytes) (t : AdType) (partition : UInt16) (cap : Nat) :
    (n i : Nat) → List LongAd → Res (List LongAd)
  | 0, _, ad => .ok ad
  | n + 1, i, ad => do
    let d ← t.decode p i partition
    let ad ← storeAd cap ad d
    decodeFileAds p t partition cap n (i + t.size) ad

/-- The union `u` of `struct file_entry`, with `ad_type` where it is used. The counter `num_ad`
is the length of the list, `information_length` that of the content. -/
inductive FileContent where
  | ads (adType : AdType) (ad : List LongAd)
  | data (content : Bytes)
  deriving DecidableEq, Repr

structure FileEntry where
  length : UInt64
  fileType : UInt8
  u : FileContent
  deriving DecidableEq, Repr

/-- `ECMA_FT_DIR`. -/
def fileTypeDir : UInt8 := 4

structure IcbTag where
  fileType : UInt8
  strategyType : UInt16
  flags : UInt16

def decodeIcbTag (p : Bytes) (i : Nat) : Res IcbTag := do
  let strategyType ← getU16 p (i + 4)
  let fileType ← getU8 p (i + 11)
  let flags ← getU16 p (i + 18)
  return { fileType := fileType.toUInt8, strategyType := strategyType.toUInt16,
           flags := flags.toUInt16 }

/-- A file entry with descriptors of format `t`. The array is allocated with room for `num_ad`
descriptors, and for one where there are none. -/
def decodeAdsEntry (p : Bytes) (partition : UInt16) (lAd pAd : UInt32) (fileType : UInt8)
    (t : AdType) : Res (Option FileEntry) := do
  let numAd := lAd.toNat / t.size
  let length ← getU64 p 56
  let ad ← decodeFileAds p t partition (max numAd 1) numAd pAd.toNat []
  return some { length, fileType, u := .ads t ad }

/-- `_decode_file_entry`. -/
def decodeFileEntryBody (p : Bytes) (size : Nat) (partition : UInt16) (lAd pAd : UInt32) :
    Res (Option FileEntry) :=
  if (pAd + lAd).toNat > size then .ok none
  else do
    let tag ← decodeIcbTag p 16
    if tag.strategyType ≠ 4 then return none
    else if tag.flags &&& 7 = 0 then decodeAdsEntry p partition lAd pAd tag.fileType .short
    else if tag.flags &&& 7 = 1 then decodeAdsEntry p partition lAd pAd tag.fileType .long
    else if tag.flags &&& 7 = 2 then decodeAdsEntry p partition lAd pAd tag.fileType .extended
    else if tag.flags &&& 7 = 3 then do
      let length ← getU64 p 56
      let content ← slice p pAd.toNat lAd.toNat
      return some { length, fileType := tag.fileType, u := .data content }
    else return none

/-- The common part of `decode_file_entry` and `decode_ext_file_entry`. -/
def decodeEntryWith (lEaAt lAdAt header : Nat) (p : Bytes) (size : Nat) (partition : UInt16) :
    Res (Option FileEntry) := do
  let lEa ← getU32 p lEaAt
  let lAd ← getU32 p lAdAt
  -- check for integer overflow
  if lEa.toNat + lAd.toNat + header ≥ 2 ^ 32 then return none
  decodeFileEntryBody p size partition lAd (UInt32.ofNat header + lEa)

def decodeFileEntry (p : Bytes) (size : Nat) (partition : UInt16) : Res (Option FileEntry) :=
  decodeEntryWith 168 172 176 p size partition

def decodeExtFileEntry (p : Bytes) (size : Nat) (partition : UInt16) : Res (Option FileEntry) :=
  decodeEntryWith 208 212 216 p size partition

/-- `decode_allocation_extent`; `none` is the return value -1. The sum of the two counters, and so
the size of the new array, is 32-bit; `struct file_entry` itself has room for one descriptor. -/
def decodeAllocationExtent (fe : FileEntry) (p : Bytes) (size : Nat) (partition : UInt16) :
    Res (Option FileEntry) := do
  let lAd ← getU32 p 20
  if size < 24 ∨ size - 24 < lAd.toNat then return none
  match fe.u with
  | .data _ => return none
  | .ads t ad =>
    let numAd := lAd.toNat / t.size
    if numAd < 1 then return some fe
    let cap := (UInt32.ofNat ad.length + UInt32.ofNat numAd).toNat + 1
    let ad ← decodeFileAds p t partition cap numAd 24 ad
    return some { fe with u := .ads t ad }

end UdfRead
