import UdfRead.File

/-!
# UdfRead.Dir

The handle of `udfread.c`, opening a volume, and the directory cache. The cached directories
(`struct udf_dir`) live in the heap `dirs`: a pointer is an index, index 0 is `&udf->root_dir`,
and a slot of `subdirs` that is still `NULL` is `none`. Cached directories are never freed while
the handle is open. Memory is never short.
-/

namespace UdfRead

open CModel

section

variable {σ : Type}

/-- `struct udf_dir`. -/
structure UdfDir where
  entries : List UdfFileIdentifier
  subdirs : Option (List (Option Nat))
  deriving DecidableEq, Repr

/-- `struct udfread`. `isOpen` says that `fs.input` is set. -/
structure Udfread where
  isOpen : Bool
  part : UdfPartitions
  dirs : List UdfDir
  volumeIdentifier : Option Bytes
  volumeSetIdentifier : Bytes
  partitionToOpen : Int
  deriving DecidableEq, Repr

/-- `udfread_init`, with a partition selected. -/
def Udfread.init (partitionToOpen : Int) : Udfread where
  isOpen := false
  part := .zero
  dirs := [{ entries := [], subdirs := none }]
  volumeIdentifier := none
  volumeSetIdentifier := List.replicate 128 0
  partitionToOpen := partitionToOpen

/-- `udfread_select_partition`. -/
def udfreadSelectPartition (udf : Udfread) (partition : Int) : Int × Udfread :=
  if udf.isOpen then (-1, udf)
  else if partition < partitionLast then (-1, udf)
  else (0, { udf with partitionToOpen := partition })

/-- `udf->root_dir.entries`. -/
def Udfread.rootEntries (udf : Udfread) : List UdfFileIdentifier :=
  match udf.dirs with
  | [] => []
  | root :: _ => root.entries

def Udfread.setRootEntries (udf : Udfread) (entries : List UdfFileIdentifier) : Udfread :=
  match udf.dirs with
  | [] => { udf with dirs := [{ entries, subdirs := none }] }
  | root :: rest => { udf with dirs := { root with entries } :: rest }

/-! ## Volume access -/

/-- The last part of `udfread_open_input`: from the partition table to the root directory. -/
def openRoot (I : BlockInput σ) (fuel : Nat) (udf : Udfread) (fsdLocation : LongAd) :
    Proc σ (Int × Udfread) := do
  match ← udfFindRootDir I fuel udf.part fsdLocation with
  | none => return (-1, udf)
  | some rootIcb =>
    let (result, entries) ← udfReadDir I fuel udf.part rootIcb udf.rootEntries
    let udf := udf.setRootEntries entries
    if result < 0 then return (-1, udf)
    return (0, { udf with isOpen := true })

/-- `udfread_open_input`. -/
def udfreadOpenInput (I : BlockInput σ) (fuel : Nat) (udf : Udfread) :
    Proc σ (Int × Udfread) :=
  if udf.isOpen then pure (-1, udf)
  else do
    if !(← udfProbeVolume I) then return (-1, udf)
    match ← udfReadVds I fuel udf.partitionToOpen with
    | none => return (-1, udf)
    | some vds =>
      match ← Proc.ofRes (udfValidateLogicalVolume vds.lvd) with
      | none => return (-1, udf)
      | some fsdLocation =>
        let volumeIdentifier ← Proc.ofRes (udfCs0ToMutf8 vds.pvd.volumeIdentifier)
        let udf := { udf with
          volumeIdentifier, volumeSetIdentifier := vds.pvd.volumeSetIdentifier }
        let (ok, part) ← udfParsePartitionMaps I vds udf.part
        let udf := { udf with part }
        if !ok then return (-1, udf)
        openRoot I fuel udf fsdLocation

/-! ## Directory cache -/

/-- A C string argument: the bytes before the first NUL. -/
def cString (s : Bytes) : Bytes := s.takeWhile (· ≠ 0)

/-- `_scan_dir`: the index of the first entry whose name is `strcmp`-equal. -/
def scanDir (entries : List UdfFileIdentifier) (filename : Bytes) : Option Nat :=
  entries.findIdx? fun fid => cString filename == cString fid.filename

/-- `dir->subdirs`, allocated when it is still `NULL`. -/
def UdfDir.slots (dir : UdfDir) : List (Option Nat) :=
  dir.subdirs.getD (List.replicate dir.entries.length none)

/-- `_cache_subdir`: the pointer to the sub-directory at entry `index` of directory `dir`. -/
def cacheSubdir (I : BlockInput σ) (fuel : Nat) (udf : Udfread) (dir index : Nat) :
    Proc σ (Option Nat × Udfread) :=
  match udf.dirs[dir]? with
  | none => Proc.ofRes (.error .outOfBounds)
  | some d =>
    match d.entries[index]? with
    | none => Proc.ofRes (.error .outOfBounds)
    | some fid =>
      if fid.characteristic &&& charFlagDir = 0 then pure (none, udf)
      else
        let udf := { udf with dirs := udf.dirs.set dir { d with subdirs := some d.slots } }
        match d.slots[index]? with
        | none => Proc.ofRes (.error .outOfBounds)
        | some (some sub) => pure (some sub, udf)
        | some none => do
          let (result, entries) ← udfReadDir I fuel udf.part fid.icb []
          if result < 0 then return (none, udf)
          let sub := udf.dirs.length
          let d' := { d with subdirs := some (d.slots.set index (some sub)) }
          return (some sub,
            { udf with dirs := udf.dirs.set dir d' ++ [{ entries, subdirs := none }] })

/-- `strtok_r(path, "/\\", ...)`: the tokens of the path. -/
def tokens (path : Bytes) : List Bytes :=
  ((cString path).splitOnP fun b => b == 0x2f || b == 0x5c).filter (· ≠ [])

/-- The loop of `_find_file` at directory `dir`, with the tokens left: the last identifier met,
and the directory the path ends in (`none` for `NULL`, when it ends in a file). The result
`none` is the return value -1. -/
def findFileLoop (I : BlockInput σ) (fuel : Nat) :
    List Bytes → Udfread → (dir : Nat) → Option UdfFileIdentifier →
      Proc σ (Option (Option Nat × Option UdfFileIdentifier) × Udfread)
  | [], udf, dir, fid => pure (some (some dir, fid), udf)
  | token :: rest, udf, dir, _ =>
    match udf.dirs[dir]? with
    | none => Proc.ofRes (.error .outOfBounds)
    | some d =>
      match scanDir d.entries token with
      | none => pure (none, udf)
      | some index =>
        match d.entries[index]? with
        | none => Proc.ofRes (.error .outOfBounds)
        | some fid =>
          if fid.characteristic &&& charFlagDir ≠ 0 then do
            match ← cacheSubdir I fuel udf dir index with
            | (none, udf) => return (none, udf)
            | (some sub, udf) => findFileLoop I fuel rest udf sub (some fid)
          else if rest ≠ [] then pure (none, udf)
          else pure (some (none, some fid), udf)

/-- `_find_file`. -/
def findFile (I : BlockInput σ) (fuel : Nat) (udf : Udfread) (path : Bytes) :
    Proc σ (Option (Option Nat × Option UdfFileIdentifier) × Udfread) :=
  findFileLoop I fuel (tokens path) udf 0 none

/-- `struct udfread_dir`. -/
structure UdfDirHandle where
  dir : Nat
  currentFile : Nat
  deriving DecidableEq, Repr

/-- `udfread_opendir`. -/
def udfreadOpendir (I : BlockInput σ) (fuel : Nat) (udf : Udfread) (path : Bytes) :
    Proc σ (Option UdfDirHandle × Udfread) :=
  if !udf.isOpen || cString path = [] then pure (none, udf)
  else do
    match ← findFile I fuel udf path with
    | (some (some dir, _), udf) => return (some { dir, currentFile := 0 }, udf)
    | (_, udf) => return (none, udf)

/-- `udfread_opendir_at`. -/
def udfreadOpendirAt (I : BlockInput σ) (fuel : Nat) (udf : Udfread) (p : UdfDirHandle)
    (name : Bytes) : Proc σ (Option UdfDirHandle × Udfread) :=
  if cString name = [] then pure (none, udf)
  else
    match udf.dirs[p.dir]? with
    | none => Proc.ofRes (.error .outOfBounds)
    | some d =>
      match scanDir d.entries name with
      | none => pure (none, udf)
      | some index => do
        match ← cacheSubdir I fuel udf p.dir index with
        | (some dir, udf) => return (some { dir, currentFile := 0 }, udf)
        | (none, udf) => return (none, udf)

/-- `_file_open`. -/
def fileOpen (I : BlockInput σ) (fuel : Nat) (udf : Udfread) (fi : UdfFileIdentifier) :
    Proc σ (Option UdfFile) :=
  if fi.characteristic &&& charFlagDir ≠ 0 then pure none
  else do
    match ← udfReadFileEntry I fuel udf.part fi.icb with
    | none => return none
    | some fe => return some (.fresh udf.part fe)

/-- `udfread_file_open`: the handle, with the file identifier it was opened from. -/
def udfreadFileOpen (I : BlockInput σ) (fuel : Nat) (udf : Udfread) (path : Bytes) :
    Proc σ (Option (UdfFileIdentifier × UdfFile) × Udfread) :=
  if !udf.isOpen then pure (none, udf)
  else do
    match ← findFile I fuel udf path with
    | (some (_, some fi), udf) => return ((← fileOpen I fuel udf fi).map (fi, ·), udf)
    | (_, udf) => return (none, udf)

/-- `udfread_file_openat`. -/
def udfreadFileOpenat (I : BlockInput σ) (fuel : Nat) (udf : Udfread) (p : UdfDirHandle)
    (name : Bytes) : Proc σ (Option (UdfFileIdentifier × UdfFile) × Udfread) :=
  if cString name = [] then pure (none, udf)
  else
    match udf.dirs[p.dir]? with
    | none => Proc.ofRes (.error .outOfBounds)
    | some d =>
      match scanDir d.entries name with
      | none => pure (none, udf)
      | some index =>
        match d.entries[index]? with
        | none => Proc.ofRes (.error .outOfBounds)
        | some fi => do return ((← fileOpen I fuel udf fi).map (fi, ·), udf)

/-! ## Directory access -/

/-- `udfread_readdir`: the name and the flag `d_type == UDF_DT_DIR`, with the advanced handle. -/
def udfreadReaddir (udf : Udfread) (p : UdfDirHandle) :
    Res (Option (Bytes × Bool) × UdfDirHandle) :=
  match udf.dirs[p.dir]? with
  | none => .error .outOfBounds
  | some d =>
    match d.entries[p.currentFile]? with
    | none => .ok (none, p)
    | some fi =>
      let entry : Bytes × Bool :=
        if fi.characteristic &&& charFlagParent ≠ 0 then ([0x2e, 0x2e], true)
        else (fi.filename, fi.characteristic &&& charFlagDir ≠ 0)
      .ok (some entry, { p with currentFile := p.currentFile + 1 })

end

end UdfRead
