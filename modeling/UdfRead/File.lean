import UdfRead.Fs
import UdfRead.Lib.Mem

/-!
# UdfRead.File

File access of `udfread.c`: block addresses, block reads, the byte stream and seeking. Sizes and
positions have the widths of the C types on a 64-bit platform (`size_t` is `UInt64`), so every
narrowing and every wrapping product of the code is one here. A buffer is an address in `Mem`.
-/

namespace UdfRead

open CModel

section

variable {σ : Type}

/-- `struct udfread_file`. `part` stands for `udf->fs.part`; `block` is `NULL` until the first
byte read of a file that is not inline. -/
structure UdfFile where
  part : UdfPartitions
  fe : FileEntry
  pos : UInt64
  block : Option Mem
  blockValid : Bool

/-- The handle `_file_open` returns. -/
def UdfFile.fresh (part : UdfPartitions) (fe : FileEntry) : UdfFile where
  part := part
  fe := fe
  pos := 0
  block := none
  blockValid := false

def udfreadFileSize (f : UdfFile) : Int := signed64 f.fe.length

/-! ## Block access -/

/-- `ad_size`: the blocks of one descriptor. -/
def adSize (ad : LongAd) : UInt32 := (ad.length + 2048 - 1) / 2048

/-- The walk of `_file_lba`: the block address, and the `extent_length` stored with it. -/
def fileLbaLoop (start : UInt32) : List LongAd → UInt32 → UInt32 × UInt32
  | [], _ => (0, 0)
  | ad :: rest, fileBlock =>
    if fileBlock < adSize ad then
      if ad.extentType ≠ LongAd.extentNormal then (0, 0)
      else if ad.lba = 0 then (0, 0)
      else (start + ad.lba + fileBlock, adSize ad - fileBlock)
    else fileLbaLoop start rest (fileBlock - adSize ad)

/-- The allocation descriptors of the file; an inline file has none. -/
def UdfFile.ads (f : UdfFile) : List LongAd :=
  match f.fe.u with
  | .ads _ ad => ad
  | .data _ => []

def UdfFile.contentInline (f : UdfFile) : Bool :=
  match f.fe.u with
  | .ads _ _ => false
  | .data _ => true

/-- `_file_lba`. -/
def fileLba (f : UdfFile) (fileBlock : UInt32) : UInt32 × UInt32 :=
  fileLbaLoop f.part.p0.lba f.ads fileBlock

def udfreadFileLba (f : UdfFile) (fileBlock : UInt32) : UInt32 :=
  if f.contentInline then 0 else (fileLba f fileBlock).1

/-- `file_blocks` in `udfread_read_blocks`: a signed 64-bit sum, narrowed to 32 bits. -/
def fileBlocks (f : UdfFile) : Res UInt32 := do
  let sum ← addSigned64 (udfreadFileSize f) 2048
  return UInt32.ofNat (((sum - 1).tdiv 2048) % 2 ^ 32).toNat

/-- The loop of `udfread_read_blocks` with `buf` at address `buf` of the memory. Every turn reads
one block or more, so `num_blocks` turns are enough. -/
def readBlocksLoop (I : BlockInput σ) (f : UdfFile) (buf : Nat) (fileBlock numBlocks : UInt32)
    (flags : Int) : (fuel : Nat) → (i : UInt32) → Mem → Proc σ (UInt32 × Mem)
  | 0, i, mem => if i < numBlocks then Proc.ofRes (.error .outOfFuel) else pure (i, mem)
  | fuel + 1, i, mem =>
    if ¬ i < numBlocks then pure (i, mem)
    else do
      let block := buf + (2048 * i).toNat
      let (lba, extentLength) := fileLba f (fileBlock + i)
      if lba = 0 then
        -- unallocated/unwritten block or EOF
        let blocks ← Proc.ofRes (fileBlocks f)
        if fileBlock + i < blocks then
          readBlocksLoop I f buf fileBlock numBlocks flags fuel (i + 1)
            (mem.blit block 2048 fun _ => 0)
        else return (i, mem)
      else
        let extentLength := min extentLength (numBlocks - i)
        let (got, data) ← I.readBlocks lba extentLength flags
        let mem := match data with
          | some d => mem.blit block (2048 * extentLength.toNat) d
          | none => mem
        if got < 1 then return (i, mem)
        else readBlocksLoop I f buf fileBlock numBlocks flags fuel (i + got) mem

def udfreadReadBlocks (I : BlockInput σ) (f : UdfFile) (mem : Mem) (buf : Nat)
    (fileBlock numBlocks : UInt32) (flags : Int) : Proc σ (UInt32 × Mem) :=
  if numBlocks = 0 then pure (0, mem)
  else if f.contentInline then pure (0, mem)
  else readBlocksLoop I f buf fileBlock numBlocks flags numBlocks.toNat 0 mem

/-! ## Byte stream -/

/-- The temporary storage for one block. Its first content is indeterminate in C; nothing reads it
before a block is stored there. -/
def UdfFile.tmp (f : UdfFile) : Mem := f.block.getD fun _ => 0

/-- Fill the temporary storage with the block at the position: whether that worked. -/
def readTmp (I : BlockInput σ) (f : UdfFile) (fileBlock : UInt32) : Proc σ (Bool × UdfFile) := do
  let (n, tmp) ← udfreadReadBlocks I f f.tmp 0 fileBlock 1 0
  let f := { f with block := some tmp }
  if n ≠ 1 then return (false, f)
  return (true, { f with blockValid := true })

/-- `if (!p->block_valid)`: keep a block that is already there. -/
def validTmp (I : BlockInput σ) (f : UdfFile) (fileBlock : UInt32) : Proc σ (Bool × UdfFile) :=
  if f.blockValid then pure (true, f) else readTmp I f fileBlock

/-- `_read`: the `ssize_t` result with the handle and the memory after it. -/
def readChunk (I : BlockInput σ) (f : UdfFile) (mem : Mem) (buf : Nat) (bytes : UInt64) :
    Proc σ (Int × UdfFile × Mem) :=
  let posOff := f.pos % 2048
  let fileBlock := (f.pos / 2048).toUInt32
  if posOff ≠ 0 then do
    -- start from middle of block
    let (ok, f) ← validTmp I f fileBlock
    if !ok then return (-1, f, mem)
    let chunkSize := min (2048 - posOff) bytes
    let mem := mem.blit buf chunkSize.toNat fun k => f.tmp (posOff.toNat + k)
    return (chunkSize.toNat, { f with pos := f.pos + chunkSize }, mem)
  else if 2048 ≤ bytes then do
    -- read full block(s)
    let numBlocks := (bytes / 2048).toUInt32
    let (numBlocks, mem) ← udfreadReadBlocks I f mem buf fileBlock numBlocks 0
    if numBlocks < 1 then return (-1, f, mem)
    let size : UInt32 := numBlocks * 2048
    return (size.toNat, { f with pos := f.pos + size.toUInt64 }, mem)
  else do
    -- read beginning of a block
    let (ok, f) ← readTmp I f fileBlock
    if !ok then return (-1, f, mem)
    let mem := mem.blit buf bytes.toNat f.tmp
    return (bytes.toNat, { f with pos := f.pos + bytes }, mem)

/-- `_read_inline` for an inline file with the given content. -/
def readInline (f : UdfFile) (content : Bytes) (mem : Mem) (buf : Nat) (bytes : UInt64) :
    Res (Int × UdfFile × Mem) := do
  let informationLength := UInt64.ofNat content.length
  let padSize : UInt64 :=
    if f.pos + bytes > informationLength then
      if f.pos > informationLength then bytes else f.pos + bytes - informationLength
    else 0
  let mem := mem.blit (buf + (bytes - padSize).toNat) padSize.toNat fun _ => 0
  let f' := { f with pos := f.pos + bytes }
  if padSize < bytes then
    let data ← slice content f.pos.toNat (bytes - padSize).toNat
    return (bytes.toNat, f', mem.blit buf (bytes - padSize).toNat fun k => data.getD k 0)
  else return (bytes.toNat, f', mem)

/-- The chunk loop of `udfread_file_read`: `off` is `bufpt - buf`. A turn that consumes nothing
repeats, so the loop takes fuel. -/
def readChunks (I : BlockInput σ) (buf : Nat) :
    (fuel : Nat) → UdfFile → Mem → (off : Nat) → (bytes : UInt64) → Proc σ (Int × UdfFile × Mem)
  | 0, f, mem, off, bytes =>
    if bytes > 0 then Proc.ofRes (.error .outOfFuel) else pure (off, f, mem)
  | fuel + 1, f, mem, off, bytes =>
    if ¬ bytes > 0 then pure (off, f, mem)
    else do
      let (r, f, mem) ← readChunk I f mem (buf + off) bytes
      if r < 0 then
        if off ≠ 0 then return (off, f, mem)  -- got some bytes
        else return (-1, f, mem)
      else readChunks I buf fuel f mem (off + r.toNat) (bytes - UInt64.ofNat r.toNat)

/-- The byte count `udfread_file_read` goes on with: the request limited to the file size. -/
def limitBytes (f : UdfFile) (bytes : UInt64) : UInt64 :=
  if f.pos + bytes > f.fe.length then f.fe.length - f.pos else bytes

def udfreadFileRead (I : BlockInput σ) (fuel : Nat) (f : UdfFile) (mem : Mem) (buf : Nat)
    (bytes : UInt64) : Proc σ (Int × UdfFile × Mem) :=
  if 2 ^ 63 ≤ bytes.toNat then pure (-1, f, mem)
  else if f.pos ≥ f.fe.length then pure (0, f, mem)
  else
    match f.fe.u with
    | .data content => Proc.ofRes (readInline f content mem buf (limitBytes f bytes))
    | .ads _ _ =>
      readChunks I buf fuel { f with block := some f.tmp } mem 0 (limitBytes f bytes)

def udfreadFileTell (f : UdfFile) : Int := signed64 f.pos

/-- `UDF_SEEK_SET`, `UDF_SEEK_CUR` and `UDF_SEEK_END`. -/
def seekSet : Int := 0
def seekCur : Int := 1
def seekEnd : Int := 2

/-- The last part of `udfread_file_seek`: the position computed from `whence`. -/
def seekTo (f : UdfFile) (pos : Int) : Int × UdfFile :=
  if pos ≥ 0 then
    let f := { f with pos := UInt64.ofNat pos.toNat, blockValid := false }
    (udfreadFileTell f, f)
  else (-1, f)

def udfreadFileSeek (f : UdfFile) (pos whence : Int) : Res (Int × UdfFile) :=
  if whence = seekCur then do return seekTo f (← addSigned64 (udfreadFileTell f) pos)
  else if whence = seekEnd then do return seekTo f (← addSigned64 (udfreadFileSize f) pos)
  else if whence = seekSet then .ok (seekTo f pos)
  else .ok (-1, f)

end

end UdfRead
