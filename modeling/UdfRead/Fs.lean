import UdfRead.Mutf8
import UdfRead.Volume

/-!
# UdfRead.Fs

`udf_fs.c`: metadata blocks with their mirror, file entries with their chain of allocation
extents, and directories. The loops that follow untrusted addresses take fuel.
-/

namespace UdfRead

open CModel

section

variable {σ : Type}

/-! ## FS metadata -/

/-- `_partition_index`, and `part->p[index]`. -/
def partitionOf (part : UdfPartitions) (number : UInt16) : Option Partition :=
  if number = part.p0.number then some part.p0
  else if part.numPartition > 1 ∧ number = part.p1.number then some part.p1
  else none

/-- One of the blocks behind the first: no tag parsing, mirror on a failed read. -/
def readFollowing (I : BlockInput σ) (p : Partition) (loc : LongAd) (i : UInt32) :
    Proc σ (Option Bytes) := do
  match ← I.readBlock (p.lba + loc.lba + i) with
  | some buf => return some buf
  | none =>
    if p.mirrorLba ≠ 0 then I.readBlock (p.mirrorLba + loc.lba + i)
    else return none

/-- The loop over the blocks behind the first, with `n` of them left. -/
def readFollowingLoop (I : BlockInput σ) (p : Partition) (loc : LongAd) :
    (n : Nat) → (i : UInt32) → Bytes → Proc σ (Option Bytes)
  | 0, _, buf => pure (some buf)
  | n + 1, i, buf => do
    match ← readFollowing I p loc i with
    | none => return none
    | some block => readFollowingLoop I p loc n (i + 1) (buf ++ block)

/-- The first block: its tag and the block, from the mirror when the tag is not valid. -/
def readFirst (I : BlockInput σ) (p : Partition) (loc : LongAd) :
    Proc σ (TagIdentifier × Bytes) := do
  let (tag, buf) ← I.readDescriptorBlock (p.lba + loc.lba)
  if tag = .invalid ∧ p.mirrorLba ≠ 0 then I.readDescriptorBlock (p.mirrorLba + loc.lba)
  else return (tag, buf)

/-- `_read_metadata_blocks`: the tag of the first block and all blocks; `none` for -1. -/
def readMetadataBlocks (I : BlockInput σ) (part : UdfPartitions) (loc : LongAd) :
    Proc σ (Option (TagIdentifier × Bytes)) := do
  match partitionOf part loc.partition with
  | none => return none
  | some p =>
    let (tag, buf) ← readFirst I p loc
    if tag = .invalid then return none
    match ← readFollowingLoop I p loc ((loc.length - 1) / 2048).toNat 1 buf with
    | none => return none
    | some buf => return some (tag, buf)

/-- `_read_metadata`. -/
def readMetadata (I : BlockInput σ) (part : UdfPartitions) (icb : LongAd) :
    Proc σ (Option (TagIdentifier × Bytes)) :=
  if (icb.length + 2048 - 1) / 2048 < 1 then pure none
  else readMetadataBlocks I part icb

/-! ## FS root -/

/-- The loop of `udf_find_root_dir` at block `lba`, up to block `last` (which may be the largest
32-bit number). -/
def findRootDirLoop (I : BlockInput σ) (part : UdfPartitions) (fsdLoc : LongAd) (last : UInt32) :
    (fuel : Nat) → (lba : UInt32) → Proc σ (Option Bytes)
  | 0, _ => Proc.ofRes (.error .outOfFuel)
  | fuel + 1, lba => do
    if ¬ lba ≤ last then return none
    match ← readMetadataBlocks I part { fsdLoc with lba, length := 2048 } with
    | none => findRootDirLoop I part fsdLoc last fuel (lba + 1)
    | some (tag, buf) =>
      if tag = .fileSetDescriptor then return some buf
      if tag = .terminatingDescriptor then return none
      findRootDirLoop I part fsdLoc last fuel (lba + 1)

/-- `udf_find_root_dir`: the root directory's ICB. -/
def udfFindRootDir (I : BlockInput σ) (fuel : Nat) (part : UdfPartitions) (fsdLoc : LongAd) :
    Proc σ (Option LongAd) := do
  let last := fsdLoc.lba + (fsdLoc.length - 1) / 2048
  match ← findRootDirLoop I part fsdLoc last fuel fsdLoc.lba with
  | none => return none
  | some buf => return some (← Proc.ofRes (decodeFileSetDescriptor buf))

/-! ## File -/

/-- How the loop over allocation extents ends: `complete` when no continuation descriptor is left;
the others are its three `break`s, each of which logs its own message. -/
inductive ChainEnd where
  | complete
  | unreadable
  | unexpectedTag
  | rejected
  deriving DecidableEq, Repr

/-- The continuation descriptor at the end of the list, and the file entry without it. -/
def FileEntry.dropContinuation (fe : FileEntry) : Option (LongAd × FileEntry) :=
  match fe.u with
  | .data _ => none
  | .ads t ad =>
    match ad.getLast? with
    | none => none
    | some icb =>
      if icb.extentType = LongAd.extentAd then some (icb, { fe with u := .ads t ad.dropLast })
      else none

/-- The loop of `udf_read_file_entry` over the allocation extents. -/
def readExtents (I : BlockInput σ) (part : UdfPartitions) :
    (fuel : Nat) → FileEntry → Proc σ (FileEntry × ChainEnd)
  | 0, _ => Proc.ofRes (.error .outOfFuel)
  | fuel + 1, fe => do
    match fe.dropContinuation with
    | none => return (fe, .complete)
    | some (icb, fe) =>
      match ← readMetadata I part icb with
      | none => return (fe, .unreadable)
      | some (tag, buf) =>
        if tag ≠ .allocationExtentDescriptor then return (fe, .unexpectedTag)
        match ← Proc.ofRes (decodeAllocationExtent fe buf icb.length.toNat icb.partition) with
        | none => return (fe, .rejected)
        | some fe => readExtents I part fuel fe

/-- The first part of `udf_read_file_entry`: the block at the ICB. -/
def readEntryBlock (I : BlockInput σ) (part : UdfPartitions) (icb : LongAd) :
    Proc σ (Option FileEntry) := do
  match ← readMetadata I part icb with
  | none => return none
  | some (tag, buf) =>
    if tag = .fileEntry then Proc.ofRes (decodeFileEntry buf 2048 icb.partition)
    else if tag = .extendedFileEntry then Proc.ofRes (decodeExtFileEntry buf 2048 icb.partition)
    else return none

/-- `udf_read_file_entry`, and how its loop ended. -/
def readFileEntryChain (I : BlockInput σ) (fuel : Nat) (part : UdfPartitions) (icb : LongAd) :
    Proc σ (Option (FileEntry × ChainEnd)) := do
  match ← readEntryBlock I part icb with
  | none => return none
  | some fe => return some (← readExtents I part fuel fe)

def udfReadFileEntry (I : BlockInput σ) (fuel : Nat) (part : UdfPartitions) (icb : LongAd) :
    Proc σ (Option FileEntry) := do
  return (← readFileEntryChain I fuel part icb).map Prod.fst

/-! ## Directory -/

/-- `struct udf_file_identifier`; `filename` is without its terminator. -/
structure UdfFileIdentifier where
  filename : Bytes
  icb : LongAd
  characteristic : UInt8
  deriving DecidableEq, Repr

/-- What becomes of one decoded identifier: the entry it adds to the directory, if any. -/
def dirEntryOf (fid : FileIdentifier) : Res (Option UdfFileIdentifier) :=
  if fid.characteristic &&& charFlagParent ≠ 0 then .ok none
  else if fid.filename.length < 1 then .ok none
  else do
    match ← udfCs0ToMutf8 fid.filename with
    | none => return none
    | some filename =>
      -- skip empty file identifiers
      if filename = [] ∨ filename.head? = some 0 then return none
      return some { filename, icb := fid.icb, characteristic := fid.characteristic }

/-- The loop of `_parse_dir_file` at index `p`. The directory is changed in place, also when the
result is -1. -/
def parseDirLoop (data : Bytes) (length : Nat) :
    (fuel p : Nat) → List UdfFileIdentifier → Res (Int × List UdfFileIdentifier)
  | 0, _, _ => .error .outOfFuel
  | fuel + 1, p, dir =>
    if ¬ p + 16 < length then .ok (0, dir)
    else if dir.length = 2 ^ 32 - 1 then .ok (0, dir)
    else do
      let tag ← decodeDescriptorTag data p
      if tag ≠ .fileIdentifierDescriptor then return (-1, dir)
      match ← decodeFileIdentifier data p (length - p) with
      | none => return (0, dir)
      | some (fid, used) =>
        match ← dirEntryOf fid with
        | none => parseDirLoop data length fuel (p + used) dir
        | some entry => parseDirLoop data length fuel (p + used) (dir ++ [entry])

/-- `_parse_dir_file`. Every identifier takes 40 bytes or more, so the fuel is never used up. -/
def parseDirFile (data : Bytes) (length : UInt32) (dir : List UdfFileIdentifier) :
    Res (Int × List UdfFileIdentifier) :=
  if length < 16 then .ok (0, dir)
  else parseDirLoop data length.toNat length.toNat 0 dir

/-- `_read_dir_file`. -/
def readDirFile (I : BlockInput σ) (part : UdfPartitions) (loc : LongAd)
    (dir : List UdfFileIdentifier) : Proc σ (Int × List UdfFileIdentifier) := do
  match ← readMetadata I part loc with
  | none => return (-1, dir)
  | some (_, data) => Proc.ofRes (parseDirFile data loc.length dir)

/-- The part of `udf_read_dir` behind the file entry. Only the first extent is read. -/
def readDirOf (I : BlockInput σ) (part : UdfPartitions) (fe : FileEntry)
    (dir : List UdfFileIdentifier) : Proc σ (Int × List UdfFileIdentifier) :=
  if fe.fileType ≠ fileTypeDir then pure (-1, dir)
  else
    match fe.u with
    | .data content => Proc.ofRes (parseDirFile content (UInt32.ofNat content.length) dir)
    | .ads _ [] => pure (-1, dir)
    | .ads _ (ad :: _) => readDirFile I part ad dir

def udfReadDir (I : BlockInput σ) (fuel : Nat) (part : UdfPartitions) (icb : LongAd)
    (dir : List UdfFileIdentifier) : Proc σ (Int × List UdfFileIdentifier) := do
  match ← udfReadFileEntry I fuel part icb with
  | none => return (-1, dir)
  | some fe => readDirOf I part fe dir

end

end UdfRead
