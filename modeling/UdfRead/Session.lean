import UdfRead.EntryTermination
import UdfRead.FailedChain
import UdfRead.LookupRuns

/-!
# UdfRead.Session

Everything that can be done with an opened volume, in any order: directories are opened, listed,
rewound and closed, files are opened, moved in, read and closed, any number of them at once. The
abstract file system has the listings and files of the image. It keeps of an open directory its
listing and the number of the next entry, and of an open file its file entry and the position.
Every run of the program is a run of that file system (`session_refines`).
-/

namespace UdfRead

open CModel

/-- `udfread_rewinddir`. -/
def udfreadRewinddir (p : UdfDirHandle) : UdfDirHandle := { p with currentFile := 0 }

/-- A call, with what is seen of its result. Handles are numbered, and a number can be used again
once the handle is closed. -/
inductive Event where
  | opendir (path : Bytes) (r : Option Nat)
  | opendirAt (j : Nat) (name : Bytes) (r : Option Nat)
  | readdir (k : Nat) (r : Option (Bytes × Bool))
  | rewinddir (k : Nat)
  | closedir (k : Nat)
  | fileOpen (path : Bytes) (r : Option Nat)
  | fileOpenat (j : Nat) (name : Bytes) (r : Option Nat)
  | fileSize (k : Nat) (r : Int)
  | fileTell (k : Nat) (r : Int)
  | seek (k : Nat) (r : Int)
  | read (k : Nat) (bytes : UInt64) (r : Int) (data : Nat → UInt8)
  | readBlocks (k : Nat) (fileBlock numBlocks r : UInt32) (data : Nat → UInt8)
  | fileClose (k : Nat)

/-! ## The program -/

structure Session (σ : Type) where
  udf : Udfread
  env : σ
  dirs : Nat → Option UdfDirHandle
  files : Nat → Option UdfFile

/-- A volume just opened. -/
def Session.opened {σ : Type} (udf : Udfread) (env : σ) : Session σ where
  udf := udf
  env := env
  dirs := fun _ => none
  files := fun _ => none

namespace Session

variable {σ : Type}

@[simps]
def setDir (st : Session σ) (k : Nat) (p : Option UdfDirHandle) : Session σ :=
  { st with dirs := Function.update st.dirs k p }

@[simps]
def setFile (st : Session σ) (k : Nat) (f : Option UdfFile) : Session σ :=
  { st with files := Function.update st.files k f }

/-- What a call leaves in the handle of the volume and in the block input. -/
@[simps]
def after (st : Session σ) (udf : Udfread) (env : σ) : Session σ := { st with udf, env }

/-- One call that returns. A handle is given a number that no handle has. -/
inductive Step (I : BlockInput σ) : Session σ → Event → Session σ → Prop where
  | opendir {st : Session σ} {fuel k : Nat} {path : Bytes} {r : Option UdfDirHandle}
      {udf : Udfread} {env : σ} : st.dirs k = none →
      udfreadOpendir I fuel st.udf path st.env = .ok ((r, udf), env) →
      Step I st (.opendir path (r.map fun _ => k)) ((st.after udf env).setDir k r)
  | opendirAt {st : Session σ} {fuel j k : Nat} {p : UdfDirHandle} {name : Bytes}
      {r : Option UdfDirHandle} {udf : Udfread} {env : σ} : st.dirs j = some p → st.dirs k = none →
      udfreadOpendirAt I fuel st.udf p name st.env = .ok ((r, udf), env) →
      Step I st (.opendirAt j name (r.map fun _ => k)) ((st.after udf env).setDir k r)
  | readdir {st : Session σ} {k : Nat} {p p' : UdfDirHandle} {r : Option (Bytes × Bool)} :
      st.dirs k = some p → udfreadReaddir st.udf p = .ok (r, p') →
      Step I st (.readdir k r) (st.setDir k (some p'))
  | rewinddir {st : Session σ} {k : Nat} {p : UdfDirHandle} : st.dirs k = some p →
      Step I st (.rewinddir k) (st.setDir k (some (udfreadRewinddir p)))
  | closedir {st : Session σ} {k : Nat} {p : UdfDirHandle} : st.dirs k = some p →
      Step I st (.closedir k) (st.setDir k none)
  | fileOpen {st : Session σ} {fuel k : Nat} {path : Bytes}
      {r : Option (UdfFileIdentifier × UdfFile)} {udf : Udfread} {env : σ} : st.files k = none →
      udfreadFileOpen I fuel st.udf path st.env = .ok ((r, udf), env) →
      Step I st (.fileOpen path (r.map fun _ => k))
        ((st.after udf env).setFile k (r.map Prod.snd))
  | fileOpenat {st : Session σ} {fuel j k : Nat} {p : UdfDirHandle} {name : Bytes}
      {r : Option (UdfFileIdentifier × UdfFile)} {udf : Udfread} {env : σ} :
      st.dirs j = some p → st.files k = none →
      udfreadFileOpenat I fuel st.udf p name st.env = .ok ((r, udf), env) →
      Step I st (.fileOpenat j name (r.map fun _ => k))
        ((st.after udf env).setFile k (r.map Prod.snd))
  | fileSize {st : Session σ} {k : Nat} {f : UdfFile} : st.files k = some f →
      Step I st (.fileSize k (udfreadFileSize f)) st
  | fileTell {st : Session σ} {k : Nat} {f : UdfFile} : st.files k = some f →
      Step I st (.fileTell k (udfreadFileTell f)) st
  | seek {st : Session σ} {k : Nat} {f f' : UdfFile} {r : Int} {env : σ} :
      st.files k = some f → FileStep I (2 ^ 32) (f, st.env) (.seek r) (f', env) →
      Step I st (.seek k r) ((st.after st.udf env).setFile k (some f'))
  | read {st : Session σ} {fuel k buf : Nat} {f f' : UdfFile} {bytes : UInt64} {r : Int}
      {mem mem' : Mem} {env : σ} : st.files k = some f → bytes.toNat < 2 ^ 32 →
      udfreadFileRead I fuel f mem buf bytes st.env = .ok ((r, f', mem'), env) →
      Step I st (.read k bytes r fun x => mem' (buf + x))
        ((st.after st.udf env).setFile k (some f'))
  | readBlocks {st : Session σ} {k buf : Nat} {f : UdfFile} {fileBlock numBlocks r : UInt32}
      {flags : Int} {mem mem' : Mem} {env : σ} : st.files k = some f →
      udfreadReadBlocks I f mem buf fileBlock numBlocks flags st.env = .ok ((r, mem'), env) →
      Step I st (.readBlocks k fileBlock numBlocks r fun x => mem' (buf + x))
        (st.after st.udf env)
  | fileClose {st : Session σ} {k : Nat} {f : UdfFile} : st.files k = some f →
      Step I st (.fileClose k) (st.setFile k none)

end Session

/-! ## The file system -/

/-- What `udfread_readdir` shows of an entry. -/
def UdfFileIdentifier.shown (fid : UdfFileIdentifier) : Bytes × Bool :=
  if fid.characteristic &&& charFlagParent ≠ 0 then ([0x2e, 0x2e], true)
  else (fid.filename, fid.characteristic &&& charFlagDir ≠ 0)

/-- A file entry that the image gives for the ICB: the one recorded there, with its allocation
extents, or what is left of it where its chain is cut off. -/
inductive FileAt (image : Image) (part : UdfPartitions) (icb : LongAd) : FileEntry → Prop where
  | whole {fe : FileEntry} {fuel : Nat} :
      udfReadFileEntry (faultFree image) fuel part icb () = .ok (some fe, ()) →
      FileAt image part icb fe
  | cut {fe g : FileEntry} : readEntryBlock (faultFree image) part icb () = .ok (some fe, ()) →
      CutAt image part fe g → FileAt image part icb g

structure FileSystem where
  dirs : Nat → Option (List UdfFileIdentifier × Nat)
  files : Nat → Option (FileEntry × Nat)

namespace FileSystem

def empty : FileSystem where
  dirs := fun _ => none
  files := fun _ => none

@[simps]
def setDir (fs : FileSystem) (k : Nat) (x : Option (List UdfFileIdentifier × Nat)) : FileSystem :=
  { fs with dirs := Function.update fs.dirs k x }

@[simps]
def setFile (fs : FileSystem) (k : Nat) (x : Option (FileEntry × Nat)) : FileSystem :=
  { fs with files := Function.update fs.files k x }

/-- A call on the file system of the image. Opening can fail, and then nothing changes. -/
inductive Step (media : Media) (part : UdfPartitions) (root : List UdfFileIdentifier) :
    FileSystem → Event → FileSystem → Prop where
  | opendirFails (fs : FileSystem) (path : Bytes) :
      Step media part root fs (.opendir path none) fs
  | opendir {fs : FileSystem} {k : Nat} {path : Bytes} {entries : List UdfFileIdentifier} :
      fs.dirs k = none → Resolves (some ∘ media) part root (tokens path) entries →
      Step media part root fs (.opendir path (some k)) (fs.setDir k (some (entries, 0)))
  | opendirAtFails {fs : FileSystem} {j : Nat} {name : Bytes} : fs.dirs j ≠ none →
      Step media part root fs (.opendirAt j name none) fs
  | opendirAt {fs : FileSystem} {j k c : Nat} {name : Bytes} {fid : UdfFileIdentifier}
      {entries sub : List UdfFileIdentifier} : fs.dirs j = some (entries, c) → fs.dirs k = none →
      firstNamed entries name = some fid → fid.IsDir → Lists (some ∘ media) part fid.icb sub →
      Step media part root fs (.opendirAt j name (some k)) (fs.setDir k (some (sub, 0)))
  | readdir {fs : FileSystem} {k c : Nat} {fid : UdfFileIdentifier}
      {entries : List UdfFileIdentifier} : fs.dirs k = some (entries, c) →
      entries[c]? = some fid →
      Step media part root fs (.readdir k (some fid.shown)) (fs.setDir k (some (entries, c + 1)))
  | readdirEnd {fs : FileSystem} {k c : Nat} {entries : List UdfFileIdentifier} :
      fs.dirs k = some (entries, c) → entries.length ≤ c →
      Step media part root fs (.readdir k none) fs
  | rewinddir {fs : FileSystem} {k c : Nat} {entries : List UdfFileIdentifier} :
      fs.dirs k = some (entries, c) →
      Step media part root fs (.rewinddir k) (fs.setDir k (some (entries, 0)))
  | closedir {fs : FileSystem} {k : Nat} : fs.dirs k ≠ none →
      Step media part root fs (.closedir k) (fs.setDir k none)
  | fileOpenFails (fs : FileSystem) (path : Bytes) :
      Step media part root fs (.fileOpen path none) fs
  | fileOpen {fs : FileSystem} {k : Nat} {path : Bytes} {fid : UdfFileIdentifier}
      {fe : FileEntry} : fs.files k = none →
      Selects (some ∘ media) part root (tokens path) fid → ¬ fid.IsDir →
      FileAt (some ∘ media) part fid.icb fe →
      Step media part root fs (.fileOpen path (some k)) (fs.setFile k (some (fe, 0)))
  | fileOpenatFails {fs : FileSystem} {j : Nat} {name : Bytes} : fs.dirs j ≠ none →
      Step media part root fs (.fileOpenat j name none) fs
  | fileOpenat {fs : FileSystem} {j k c : Nat} {name : Bytes} {fid : UdfFileIdentifier}
      {entries : List UdfFileIdentifier} {fe : FileEntry} : fs.dirs j = some (entries, c) →
      fs.files k = none → firstNamed entries name = some fid → ¬ fid.IsDir →
      FileAt (some ∘ media) part fid.icb fe →
      Step media part root fs (.fileOpenat j name (some k)) (fs.setFile k (some (fe, 0)))
  | fileSize {fs : FileSystem} {k pos : Nat} {fe : FileEntry} : fs.files k = some (fe, pos) →
      Step media part root fs (.fileSize k (signed64 fe.length)) fs
  | fileTell {fs : FileSystem} {k pos : Nat} {fe : FileEntry} : fs.files k = some (fe, pos) →
      Step media part root fs (.fileTell k (signed64 (UInt64.ofNat pos))) fs
  | seek {fs : FileSystem} {k pos pos' : Nat} {fe : FileEntry} : fs.files k = some (fe, pos) →
      Step media part root fs (.seek k pos') (fs.setFile k (some (fe, pos')))
  | seekFails {fs : FileSystem} {k : Nat} : fs.files k ≠ none →
      Step media part root fs (.seek k (-1)) fs
  /-- A read stops short of the end of the file, and reads nothing only there. -/
  | read {fs : FileSystem} {k pos count : Nat} {fe : FileEntry} {bytes : UInt64}
      {data : Nat → UInt8} : fs.files k = some (fe, pos) → count ≤ bytes.toNat →
      count ≤ fe.length.toNat - pos →
      (count = 0 → bytes.toNat = 0 ∨ fe.length.toNat ≤ pos) →
      (∀ x, x < count → data x = logicalByte media (.fresh part fe) (pos + x)) →
      Step media part root fs (.read k bytes count data) (fs.setFile k (some (fe, pos + count)))
  | readFails {fs : FileSystem} {k : Nat} {bytes : UInt64} {data : Nat → UInt8} :
      fs.files k ≠ none → Step media part root fs (.read k bytes (-1) data) fs
  /-- In a file of 2^43 bytes or more a read may go anywhere. -/
  | farRead {fs : FileSystem} {k pos pos' : Nat} {fe : FileEntry} {bytes : UInt64} {r : Int}
      {data : Nat → UInt8} : fs.files k = some (fe, pos) → ¬ (UdfFile.fresh part fe).InRange →
      Step media part root fs (.read k bytes r data) (fs.setFile k (some (fe, pos')))
  /-- The blocks of a request of up to 2^21 blocks are those of the content. -/
  | readBlocks {fs : FileSystem} {k pos : Nat} {fe : FileEntry} {fileBlock numBlocks r : UInt32}
      {data : Nat → UInt8} : fs.files k = some (fe, pos) →
      ((UdfFile.fresh part fe).InRange → numBlocks.toNat ≤ 2 ^ 21 →
        fileBlock.toNat + numBlocks.toNat ≤ 2 ^ 32 → r.toNat ≤ numBlocks.toNat ∧
        ∀ x, x < 2048 * r.toNat →
          data x = logicalByte media (.fresh part fe) (2048 * fileBlock.toNat + x)) →
      Step media part root fs (.readBlocks k fileBlock numBlocks r data) fs
  | fileClose {fs : FileSystem} {k : Nat} : fs.files k ≠ none →
      Step media part root fs (.fileClose k) (fs.setFile k none)

end FileSystem

section

variable {σ : Type} {I : BlockInput σ} {media : Media} {image : Image} {part : UdfPartitions}
  {udf udf' : Udfread} {fuel : Nat} {s s' : σ} {fe fe' : FileEntry} {f f' : UdfFile}
  {icb : LongAd} {fid : UdfFileIdentifier} {root entries : List UdfFileIdentifier}

/-! ## Opening a file -/

/-- An input that serves the medium reads its image. -/
theorem BlockInput.Serves.faults (hI : I.Serves media) : I.Faults (some ∘ media) := by
  intro lba s buf s' hread
  unfold BlockInput.readBlock at hread
  have hserved := hI lba 1 0 s 0
  revert hread hserved
  cases I.read lba 1 0 s with
  | mk t s₁ =>
    intro hread hserved
    simp only at hread
    by_cases hcount : t.count = 1
    · rw [if_pos hcount] at hread
      have hbuf : some (blockBytes t.data) = some buf := congrArg Prod.fst (Except.ok.inj hread)
      obtain ⟨-, hdata⟩ := hserved (by simp [hcount])
      refine ⟨media lba, rfl, ?_⟩
      rw [← Option.some.inj hbuf]
      unfold blockBytes
      congr 1
      funext k
      have hk := hdata k k.isLt
      rwa [Nat.mul_zero, Nat.zero_add, add_ofNat_zero] at hk
    · rw [if_neg hcount] at hread
      cases hread

/-- An allocation extent keeps the counter of the descriptors in its width. -/
theorem decodeAllocationExtent_sized {buf : Bytes} {size : Nat} {partition : UInt16}
    (hsized : fe.Sized) (hlen : 24 ≤ buf.length) (hsize : size ≤ buf.length)
    (h : decodeAllocationExtent fe buf size partition = .ok (some fe')) : fe'.Sized := by
  cases hu : fe.u with
  | data content =>
    rw [decodeAllocationExtent, getU32_eq (by omega), Res.ok_bind, hu] at h
    split at h
    · cases h
    · cases h
  | ads t ad =>
    have had : ad.length < 2 ^ 32 := by
      unfold FileEntry.Sized at hsized
      rwa [hu] at hsized
    rw [decodeAllocationExtent_eq hlen hsize hu had] at h
    split at h
    · split at h
      · cases h
        exact hsized
      · split at h
        · cases h
          simpa [FileEntry.Sized] using ‹_›
        · cases h
    · cases h

theorem dropContinuation_sized (hsized : fe.Sized) (h : fe.dropContinuation = some (icb, fe')) :
    fe'.Sized := by
  unfold FileEntry.dropContinuation at h
  cases hu : fe.u with
  | data content =>
    rw [hu] at h
    cases h
  | ads t ad =>
    unfold FileEntry.Sized at hsized
    rw [hu] at h hsized
    simp only at h hsized
    split at h
    · cases h
    · split at h
      · cases h
        simp only [FileEntry.Sized, List.length_dropLast]
        omega
      · cases h

theorem readExtents_sized {e : ChainEnd} (hsized : fe.Sized)
    (h : readExtents I part fuel fe s = .ok ((fe', e), s')) : fe'.Sized := by
  induction fuel generalizing fe s with
  | zero => cases h
  | succ fuel ih =>
    rw [readExtents] at h
    cases hd : fe.dropContinuation with
    | none =>
      rw [hd] at h
      cases h
      exact hsized
    | some drop =>
      obtain ⟨loc, g⟩ := drop
      have hg := dropContinuation_sized hsized hd
      rw [hd] at h
      obtain ⟨m, s₁, hread, h⟩ := Proc.bind_eq_ok.mp h
      obtain ⟨m', _, hread', hbuf⟩ := readMetadata_returns I part loc s
      rw [hread'] at hread
      cases hread
      cases m with
      | none =>
        cases h
        exact hg
      | some b =>
        obtain ⟨tag, buf⟩ := b
        obtain ⟨hsize, h2048⟩ := hbuf tag buf rfl
        simp only at h
        split at h
        · cases h
          exact hg
        · obtain ⟨d, s₂, hdec, h⟩ := Proc.bind_eq_ok.mp h
          obtain ⟨hdec, -⟩ := Proc.ofRes_eq_ok.mp hdec
          cases d with
          | none =>
            cases h
            exact hg
          | some fe₂ => exact ih (decodeAllocationExtent_sized hg (by omega) hsize hdec) h

/-- The file entry that a file is opened with is one of the image. -/
theorem udfReadFileEntry_fileAt (hI : I.Faults image)
    (hagree : ∀ loc, EntryReads image part icb loc → ExtentAgrees image part loc)
    (h : udfReadFileEntry I fuel part icb s = .ok (some fe, s')) :
    FileAt image part icb fe ∧ fe.Sized := by
  obtain ⟨c, s₁, hchain, h⟩ := Proc.bind_eq_ok.mp h
  obtain ⟨m, s₂, hblock, hchain⟩ := Proc.bind_eq_ok.mp hchain
  cases m with
  | none =>
    cases hchain
    cases h
  | some fe₀ =>
    obtain ⟨⟨g, e⟩, s₃, hext, hchain⟩ := Proc.bind_eq_ok.mp hchain
    cases hchain
    cases h
    have hfree := readEntryBlock_faulty hI (hagree icb .entry) hblock
    obtain ⟨m, _, hret, hsized⟩ := readEntryBlock_returns I part icb s
    rw [hblock] at hret
    cases hret
    refine ⟨?_, readExtents_sized (hsized fe₀ rfl) hext⟩
    obtain hwhole | hcut := readExtents_faulty hI hagree (.first hfree) hext
    · have hchain' : readFileEntryChain (faultFree image) fuel part icb () =
          .ok (some (g, e), ()) := by
        rw [readFileEntryChain, Proc.bind_of_ok hfree]
        exact Proc.bind_of_ok hwhole
      exact .whole (Proc.bind_of_ok hchain')
    · exact .cut hfree hcut

theorem fileOpen_fileAt (hI : I.Faults image)
    (hagree : ¬ fid.IsDir → ∀ loc, EntryReads image udf.part fid.icb loc →
      ExtentAgrees image udf.part loc)
    (h : fileOpen I fuel udf fid s = .ok (some f, s')) :
    ¬ fid.IsDir ∧ ∃ fe, f = .fresh udf.part fe ∧ FileAt image udf.part fid.icb fe ∧ fe.Sized := by
  unfold fileOpen at h
  split at h
  · cases h
  · rename_i hdir
    obtain ⟨m, s₁, hread, h⟩ := Proc.bind_eq_ok.mp h
    cases m with
    | none => cases h
    | some fe =>
      cases h
      exact ⟨hdir, fe, rfl, udfReadFileEntry_fileAt hI (hagree hdir) hread⟩

/-! ## The simulation -/

/-- An open directory has a listing of the image, and stands at the entry. -/
structure DirRefines (image : Image) (part : UdfPartitions) (root : List UdfFileIdentifier)
    (udf : Udfread) (p : UdfDirHandle) (x : List UdfFileIdentifier × Nat) : Prop where
  node : udf.Node p.dir x.1
  current : p.currentFile = x.2
  path : ∃ names, Resolves image part root names x.1

/-- An open file has the file entry, and stands at the position. -/
structure FileRefines (media : Media) (part : UdfPartitions) (f : UdfFile) (x : FileEntry × Nat) :
    Prop where
  same : f.Same (.fresh part x.1)
  sized : x.1.Sized
  cached : (UdfFile.fresh part x.1).InRange → Cached media f
  readable : CacheReadable f
  pos : f.pos.toNat = x.2

structure SessionRefines (media : Media) (part : UdfPartitions) (root : List UdfFileIdentifier)
    (st : Session σ) (fs : FileSystem) : Prop where
  table : st.udf.part = part
  cache : CacheInv (some ∘ media) root st.udf
  dirs : ∀ k, Option.Rel (DirRefines (some ∘ media) part root st.udf) (st.dirs k) (fs.dirs k)
  files : ∀ k, Option.Rel (FileRefines media part) (st.files k) (fs.files k)

/-- Every directory that the resolver can get to is steady, and the mirror copies of what is read to
open a file equal the primary ones. -/
structure SteadyVolume (image : Image) (part : UdfPartitions) (root : List UdfFileIdentifier) :
    Prop where
  dirs : ∀ names, OnPath image part (Steady image part) root names
  files : ∀ names fid, Selects image part root names fid → ¬ fid.IsDir →
    ∀ loc, EntryReads image part fid.icb loc → ExtentAgrees image part loc

theorem DirRefines.grow {p : UdfDirHandle} {x : List UdfFileIdentifier × Nat}
    (h : DirRefines image part root udf p x) (hgrows : Grows udf udf') :
    DirRefines image part root udf' p x :=
  ⟨hgrows.node _ _ h.node, h.current, h.path⟩

theorem fileRefines_fresh (media : Media) (part : UdfPartitions) (hsized : fe.Sized) :
    FileRefines media part (.fresh part fe) (fe, 0) where
  same := .refl _
  sized := hsized
  cached _ _ hv := by cases hv
  readable _ hv := by cases hv
  pos := rfl

variable {st : Session σ} {fs : FileSystem}

theorem Session.setDir_none (st : Session σ) {k : Nat} (h : st.dirs k = none) :
    st.setDir k none = st := by
  unfold setDir
  rw [← h, Function.update_eq_self]

theorem Session.setFile_none (st : Session σ) {k : Nat} (h : st.files k = none) :
    st.setFile k none = st := by
  unfold setFile
  rw [← h, Function.update_eq_self]

namespace SessionRefines

variable (h : SessionRefines media part root st fs)
include h

theorem dir {k : Nat} {p : UdfDirHandle} (hk : st.dirs k = some p) :
    ∃ x, fs.dirs k = some x ∧ DirRefines (some ∘ media) part root st.udf p x := by
  have hrel := h.dirs k
  rw [hk] at hrel
  generalize fs.dirs k = y at hrel ⊢
  cases hrel with
  | some hx => exact ⟨_, rfl, hx⟩

theorem noDir {k : Nat} (hk : st.dirs k = none) : fs.dirs k = none := by
  have hrel := h.dirs k
  rw [hk] at hrel
  generalize fs.dirs k = y at hrel ⊢
  cases hrel
  rfl

theorem file {k : Nat} (hk : st.files k = some f) :
    ∃ x, fs.files k = some x ∧ FileRefines media part f x := by
  have hrel := h.files k
  rw [hk] at hrel
  generalize fs.files k = y at hrel ⊢
  cases hrel with
  | some hx => exact ⟨_, rfl, hx⟩

theorem noFile {k : Nat} (hk : st.files k = none) : fs.files k = none := by
  have hrel := h.files k
  rw [hk] at hrel
  generalize fs.files k = y at hrel ⊢
  cases hrel
  rfl

theorem setDir {p : Option UdfDirHandle} {x : Option (List UdfFileIdentifier × Nat)} (k : Nat)
    (hx : Option.Rel (DirRefines (some ∘ media) part root st.udf) p x) :
    SessionRefines media part root (st.setDir k p) (fs.setDir k x) := by
  refine ⟨h.table, h.cache, fun j => ?_, h.files⟩
  by_cases hj : j = k
  · subst hj
    simpa using hx
  · simpa [hj] using h.dirs j

theorem setFile {g : Option UdfFile} {x : Option (FileEntry × Nat)} (k : Nat)
    (hx : Option.Rel (FileRefines media part) g x) :
    SessionRefines media part root (st.setFile k g) (fs.setFile k x) := by
  refine ⟨h.table, h.cache, h.dirs, fun j => ?_⟩
  by_cases hj : j = k
  · subst hj
    simpa using hx
  · simpa [hj] using h.files j

/-- What a lookup adds to the cache changes no open directory or file. -/
theorem after (hinv : CacheInv (some ∘ media) root udf') (hgrows : Grows st.udf udf') (env : σ) :
    SessionRefines media part root (st.after udf' env) fs := by
  refine ⟨hgrows.part.trans h.table, hinv, fun k => ?_, h.files⟩
  have hrel := h.dirs k
  generalize hp : st.dirs k = p at hrel
  generalize hx : fs.dirs k = x at hrel
  have hp' : (st.after udf' env).dirs k = p := hp
  rw [hp']
  cases hrel with
  | none => exact .none
  | some hd => exact .some (hd.grow hgrows)

end SessionRefines

/-! ### Directories -/

theorem udfreadOpendir_current {path : Bytes} {p : UdfDirHandle}
    (hrun : udfreadOpendir I fuel udf path s = .ok ((some p, udf'), s')) : p.currentFile = 0 := by
  obtain ⟨hr, -⟩ | ⟨found, -, hr | ⟨dir, fid, -, hr⟩⟩ := udfreadOpendir_cases hrun
  · cases hr
  · cases hr
  · cases hr
    rfl

theorem udfreadOpendirAt_current {q p : UdfDirHandle} {name : Bytes}
    (hrun : udfreadOpendirAt I fuel udf q name s = .ok ((some p, udf'), s')) :
    p.currentFile = 0 := by
  obtain ⟨hr, -⟩ | ⟨d, index, sub, -, -, -, hr⟩ := udfreadOpendirAt_cases hrun
  · cases hr
  · obtain ⟨dir, -, rfl⟩ := Option.map_eq_some_iff.mp hr.symm
    rfl

/-- `udfread_readdir` shows the next entry of the listing, or is at its end. -/
theorem udfreadReaddir_cases {p p' : UdfDirHandle} {r : Option (Bytes × Bool)}
    (hnode : udf.Node p.dir entries) (h : udfreadReaddir udf p = .ok (r, p')) :
    (∃ fid, entries[p.currentFile]? = some fid ∧ r = some fid.shown ∧
      p' = { p with currentFile := p.currentFile + 1 }) ∨
    (entries.length ≤ p.currentFile ∧ r = none ∧ p' = p) := by
  obtain ⟨d, hd, rfl⟩ := hnode
  unfold udfreadReaddir at h
  simp only [hd] at h
  cases hfid : d.entries[p.currentFile]? with
  | none =>
    rw [hfid] at h
    cases h
    exact .inr ⟨List.getElem?_eq_none_iff.mp hfid, rfl, rfl⟩
  | some fid =>
    rw [hfid] at h
    cases h
    exact .inl ⟨fid, rfl, rfl, rfl⟩

namespace SessionRefines

variable (h : SessionRefines media part root st fs) (hI : I.Serves media)
  (hvolume : SteadyVolume (some ∘ media) part root)
include h hI hvolume

theorem opendir {k : Nat} {path : Bytes} {r : Option UdfDirHandle} {env : σ}
    (hk : st.dirs k = none)
    (hrun : udfreadOpendir I fuel st.udf path st.env = .ok ((r, udf'), env)) :
    ∃ fs', FileSystem.Step media part root fs (.opendir path (r.map fun _ => k)) fs' ∧
      SessionRefines media part root ((st.after udf' env).setDir k r) fs' := by
  have hsteady := hvolume.dirs (tokens path)
  rw [← h.table] at hsteady
  obtain ⟨hinv, hgrows, hr⟩ := udfreadOpendir_inv hI.faults h.cache hsteady hrun
  have hafter := h.after hinv hgrows env
  cases r with
  | none =>
    rw [Session.setDir_none (st.after udf' env) hk]
    exact ⟨fs, .opendirFails fs path, hafter⟩
  | some p =>
    obtain ⟨sub, hnode, hres⟩ := hr p rfl
    rw [h.table] at hres
    refine ⟨_, .opendir (h.noDir hk) hres, hafter.setDir k (.some ?_)⟩
    exact ⟨hnode, udfreadOpendir_current hrun, tokens path, hres⟩

theorem opendirAt {j k : Nat} {p : UdfDirHandle} {name : Bytes} {r : Option UdfDirHandle}
    {env : σ} (hj : st.dirs j = some p) (hk : st.dirs k = none)
    (hrun : udfreadOpendirAt I fuel st.udf p name st.env = .ok ((r, udf'), env)) :
    ∃ fs', FileSystem.Step media part root fs (.opendirAt j name (r.map fun _ => k)) fs' ∧
      SessionRefines media part root ((st.after udf' env).setDir k r) fs' := by
  obtain ⟨⟨entries, c⟩, hx, hp⟩ := h.dir hj
  obtain ⟨names, hpath⟩ := hp.path
  have hsteady : ∀ fid, firstNamed entries name = some fid → fid.IsDir →
      Steady (some ∘ media) st.udf.part fid.icb := by
    intro fid hfid hisdir
    rw [h.table]
    exact (hvolume.dirs (names ++ [name])).last hpath hfid hisdir
  obtain ⟨hinv, hgrows, hr⟩ := udfreadOpendirAt_inv hI.faults h.cache hp.node hsteady hrun
  have hafter := h.after hinv hgrows env
  cases r with
  | none =>
    rw [Session.setDir_none (st.after udf' env) hk]
    exact ⟨fs, .opendirAtFails (by simp [hx]), hafter⟩
  | some p' =>
    obtain ⟨fid, sub, hfirst, hisdir, hnode, hlist⟩ := hr p' rfl
    rw [h.table] at hlist
    refine ⟨_, .opendirAt hx (h.noDir hk) hfirst hisdir hlist, hafter.setDir k (.some ?_)⟩
    exact ⟨hnode, udfreadOpendirAt_current hrun, names ++ [name], hpath.snoc hfirst hisdir hlist⟩

omit hI hvolume in
theorem readdir {k : Nat} {p p' : UdfDirHandle} {r : Option (Bytes × Bool)}
    (hk : st.dirs k = some p) (hrun : udfreadReaddir st.udf p = .ok (r, p')) :
    ∃ fs', FileSystem.Step media part root fs (.readdir k r) fs' ∧
      SessionRefines media part root (st.setDir k (some p')) fs' := by
  obtain ⟨⟨entries, c⟩, hx, hp⟩ := h.dir hk
  obtain rfl : p.currentFile = c := hp.current
  obtain ⟨fid, hfid, rfl, rfl⟩ | ⟨hend, rfl, rfl⟩ := udfreadReaddir_cases hp.node hrun
  · exact ⟨_, .readdir hx hfid, h.setDir k (.some ⟨hp.node, rfl, hp.path⟩)⟩
  · refine ⟨fs, .readdirEnd hx hend, ?_⟩
    have hsame : st.setDir k (some p') = st := by
      unfold Session.setDir
      rw [← hk, Function.update_eq_self]
    rwa [hsame]

/-! ### Files -/

theorem fileOpen {k : Nat} {path : Bytes} {r : Option (UdfFileIdentifier × UdfFile)} {env : σ}
    (hk : st.files k = none)
    (hrun : udfreadFileOpen I fuel st.udf path st.env = .ok ((r, udf'), env)) :
    ∃ fs', FileSystem.Step media part root fs (.fileOpen path (r.map fun _ => k)) fs' ∧
      SessionRefines media part root ((st.after udf' env).setFile k (r.map Prod.snd)) fs' := by
  have hsteady := hvolume.dirs (tokens path)
  rw [← h.table] at hsteady
  obtain ⟨hinv, hgrows, hr⟩ := udfreadFileOpen_inv hI.faults h.cache hsteady hrun
  have hafter := h.after hinv hgrows env
  cases r with
  | none =>
    rw [Option.map_none, Option.map_none, Session.setFile_none (st.after udf' env) hk]
    exact ⟨fs, .fileOpenFails fs path, hafter⟩
  | some x =>
    obtain ⟨fid, f⟩ := x
    have hsel := hr fid f rfl
    rw [h.table] at hsel
    obtain ⟨hr, -⟩ | ⟨found, s₁, -, hr | ⟨dir, fi, file, -, hopen, hfile⟩⟩ :=
      udfreadFileOpen_cases hrun
    · cases hr
    · cases hr
    · obtain ⟨g, rfl, hg⟩ := Option.map_eq_some_iff.mp hfile.symm
      cases hg
      have hpart : udf'.part = part := hafter.table
      have hagree := hvolume.files _ _ hsel
      rw [← hpart] at hagree
      obtain ⟨hdir, fe, rfl, hfe, hsized⟩ := fileOpen_fileAt hI.faults hagree hopen
      rw [hpart] at hfe ⊢
      exact ⟨_, .fileOpen (h.noFile hk) hsel hdir hfe,
        hafter.setFile k (.some (fileRefines_fresh media part hsized))⟩

theorem fileOpenat {j k : Nat} {p : UdfDirHandle} {name : Bytes}
    {r : Option (UdfFileIdentifier × UdfFile)} {env : σ} (hj : st.dirs j = some p)
    (hk : st.files k = none)
    (hrun : udfreadFileOpenat I fuel st.udf p name st.env = .ok ((r, udf'), env)) :
    ∃ fs', FileSystem.Step media part root fs (.fileOpenat j name (r.map fun _ => k)) fs' ∧
      SessionRefines media part root ((st.after udf' env).setFile k (r.map Prod.snd)) fs' := by
  obtain ⟨⟨entries, c⟩, hx, hp⟩ := h.dir hj
  obtain ⟨names, hpath⟩ := hp.path
  obtain ⟨rfl, hr⟩ := udfreadFileOpenat_inv hp.node hrun
  have hafter := h.after h.cache (.refl _) env
  cases r with
  | none =>
    rw [Option.map_none, Option.map_none, Session.setFile_none (st.after _ env) hk]
    exact ⟨fs, .fileOpenatFails (by simp [hx]), hafter⟩
  | some x =>
    obtain ⟨fid, f⟩ := x
    have hfirst := hr fid f rfl
    obtain ⟨-, hr | ⟨d, index, fi, file, -, -, -, hopen, hfile⟩⟩ := udfreadFileOpenat_cases hrun
    · cases hr
    · obtain ⟨g, rfl, hg⟩ := Option.map_eq_some_iff.mp hfile.symm
      cases hg
      have hagree := hvolume.files _ _ (.snoc hpath hfirst)
      rw [← h.table] at hagree
      obtain ⟨hdir, fe, rfl, hfe, hsized⟩ := fileOpen_fileAt hI.faults hagree hopen
      rw [h.table] at hfe ⊢
      exact ⟨_, .fileOpenat hx (h.noFile hk) hfirst hdir hfe,
        hafter.setFile k (.some (fileRefines_fresh media part hsized))⟩

omit hvolume in
theorem seek {k : Nat} {r : Int} {env : σ} (hk : st.files k = some f)
    (hstep : FileStep I (2 ^ 32) (f, st.env) (.seek r) (f', env)) :
    ∃ fs', FileSystem.Step media part root fs (.seek k r) fs' ∧
      SessionRefines media part root ((st.after st.udf env).setFile k (some f')) fs' := by
  obtain ⟨⟨fe, pos⟩, hx, hf⟩ := h.file hk
  have hafter := h.after h.cache (.refl _) env
  have hstart : f.Same (.fresh part fe) ∧ CacheReadable f := ⟨hf.same, hf.readable⟩
  obtain ⟨hsame, hreadable⟩ := fileStep_cache hI hstart hstep
  have hcases : (r = -1 ∧ f' = f) ∨ (r = f'.pos.toNat ∧ f'.Same f ∧ f'.blockValid = false) := by
    cases hstep with
    | seek pos whence hlo hhi hs => exact udfreadFileSeek_cases hhi hs
    | seekOverflow ht hhi hs => exact seekTo_cases hhi hs
  obtain ⟨rfl, rfl⟩ | ⟨rfl, -, hvalid⟩ := hcases
  · refine ⟨fs, .seekFails (by simp [hx]), ?_⟩
    have hsame : (st.after st.udf env).setFile k (some f') = st.after st.udf env := by
      unfold Session.setFile
      rw [← hk]
      exact congrArg (Session.mk st.udf env st.dirs) (Function.update_eq_self k st.files)
    rwa [hsame]
  · have hf' : FileRefines media part f' (fe, f'.pos.toNat) := by
      refine ⟨hsame, hf.sized, fun _ _ hv => ?_, hreadable, rfl⟩
      rw [hvalid] at hv
      cases hv
    exact ⟨_, .seek hx, hafter.setFile k (.some hf')⟩

omit hvolume in
theorem read {k buf : Nat} {bytes : UInt64} {r : Int} {mem mem' : Mem} {env : σ}
    (hk : st.files k = some f) (hb : bytes.toNat < 2 ^ 32)
    (hrun : udfreadFileRead I fuel f mem buf bytes st.env = .ok ((r, f', mem'), env)) :
    ∃ fs', FileSystem.Step media part root fs (.read k bytes r fun x => mem' (buf + x)) fs' ∧
      SessionRefines media part root ((st.after st.udf env).setFile k (some f')) fs' := by
  obtain ⟨⟨fe, pos⟩, hx, hf⟩ := h.file hk
  have hafter := h.after h.cache (.refl _) env
  obtain ⟨hsame, hreadable⟩ := udfreadFileRead_cache hI hf.readable hrun
  have hsame' := hsame.trans hf.same
  by_cases hrange : (UdfFile.fresh part fe).InRange
  · obtain rfl : f.pos.toNat = pos := hf.pos
    have hfe : f.fe = fe := hf.same.2
    have hspec := udfreadFileRead_spec hI (show f.fe.length.toNat ≤ _ by rw [hfe]; exact hrange)
      (by rw [hfe]; exact hf.sized) (hf.cached hrange) hb fuel mem buf st.env
    rw [hrun] at hspec
    have hd := Res.post_ok.mp hspec
    obtain ⟨-, hr, hpos⟩ | ⟨count, hr, hprogress, hcount, hpos, hold⟩ := hd.result
    · simp only at hr hpos
      subst hr
      refine ⟨fs, .readFails (by simp [hx]), ?_⟩
      have hf' : FileRefines media part f' (fe, f.pos.toNat) :=
        ⟨hsame', hf.sized, fun _ => hd.cached, hreadable, by rw [hpos]⟩
      have hfs : fs.setFile k (some (fe, f.pos.toNat)) = fs := by
        unfold FileSystem.setFile
        rw [← hx, Function.update_eq_self]
      rw [← hfs]
      exact hafter.setFile k (.some hf')
    · simp only [Nat.zero_add] at hr hprogress hold
      subst hr
      have hrest : rest f bytes.toNat = min bytes.toNat (fe.length.toNat - f.pos.toNat) := by
        rw [rest, hfe]
      have hf' : FileRefines media part f' (fe, f.pos.toNat + count) :=
        ⟨hsame', hf.sized, fun _ => hd.cached, hreadable, hpos⟩
      refine ⟨_, .read hx (by omega) (by omega) (fun hzero => by omega) fun x hxc => ?_,
        hafter.setFile k (.some hf')⟩
      rw [← logicalByte_same hf.same]
      exact hold x hxc
  · have hf' : FileRefines media part f' (fe, f'.pos.toNat) :=
      ⟨hsame', hf.sized, fun hrange' => absurd hrange' hrange, hreadable, rfl⟩
    exact ⟨_, .farRead hx hrange, hafter.setFile k (.some hf')⟩

omit hvolume in
theorem readBlocks {k buf : Nat} {fileBlock numBlocks r : UInt32} {flags : Int} {mem mem' : Mem}
    {env : σ} (hk : st.files k = some f)
    (hrun : udfreadReadBlocks I f mem buf fileBlock numBlocks flags st.env = .ok ((r, mem'), env)) :
    FileSystem.Step media part root fs
      (.readBlocks k fileBlock numBlocks r fun x => mem' (buf + x)) fs := by
  obtain ⟨⟨fe, pos⟩, hx, hf⟩ := h.file hk
  refine .readBlocks hx fun hrange hnum hend => ?_
  cases hinline : f.contentInline with
  | true =>
    have hr : r = 0 := by
      unfold udfreadReadBlocks at hrun
      rw [hinline] at hrun
      split at hrun
      · cases hrun
        rfl
      · cases hrun
        rfl
    subst hr
    exact ⟨Nat.zero_le _, fun x hx => by simp at hx⟩
  | false =>
    have hrange' : f.InRange := by
      unfold UdfFile.InRange
      rw [hf.same.2]
      exact hrange
    obtain ⟨r', mem₁, env₁, hrun', hread⟩ := udfreadReadBlocks_fit hI hinline
      (blocksFit_inRange hrange' hend hnum) mem buf flags st.env
    rw [hrun] at hrun'
    cases hrun'
    refine ⟨hread.le_num, fun x hxr => ?_⟩
    -- byte `x` is in block `x / 2048` of the request
    have hbyte := (hread.bytes (x / 2048) (Nat.zero_le _) (by omega)).2 (x % 2048) (by omega)
    rw [← ofNat_toNat_add, blockByte_same hf.same,
      ← logicalByte_block (by rw [← contentInline_same hf.same]; exact hinline) (by omega)] at hbyte
    rw [show buf + 2048 * (x / 2048) + x % 2048 = buf + x by omega,
      show 2048 * (fileBlock.toNat + x / 2048) + x % 2048 = 2048 * fileBlock.toNat + x by omega]
      at hbyte
    exact hbyte

/-- Each call of the program is one on the file system. -/
theorem step {e : Event} {st' : Session σ} (hstep : st.Step I e st') :
    ∃ fs', FileSystem.Step media part root fs e fs' ∧
      SessionRefines media part root st' fs' := by
  cases hstep with
  | opendir hk hrun => exact h.opendir hI hvolume hk hrun
  | opendirAt hj hk hrun => exact h.opendirAt hI hvolume hj hk hrun
  | readdir hk hrun => exact h.readdir hk hrun
  | @rewinddir k p hk =>
    obtain ⟨⟨entries, c⟩, hx, hp⟩ := h.dir hk
    have hp' : DirRefines (some ∘ media) part root st.udf (udfreadRewinddir p) (entries, 0) :=
      ⟨hp.node, rfl, hp.path⟩
    exact ⟨_, .rewinddir hx, h.setDir k (.some hp')⟩
  | @closedir k p hk =>
    obtain ⟨x, hx, -⟩ := h.dir hk
    exact ⟨_, .closedir (by simp [hx]), h.setDir k .none⟩
  | fileOpen hk hrun => exact h.fileOpen hI hvolume hk hrun
  | fileOpenat hj hk hrun => exact h.fileOpenat hI hvolume hj hk hrun
  | fileSize hk =>
    obtain ⟨⟨fe, pos⟩, hx, hf⟩ := h.file hk
    refine ⟨fs, ?_, h⟩
    rw [udfreadFileSize, hf.same.2]
    exact .fileSize hx
  | @fileTell k f hk =>
    obtain ⟨⟨fe, pos⟩, hx, hf⟩ := h.file hk
    have hfpos : f.pos.toNat = pos := hf.pos
    have hpos : f.pos = UInt64.ofNat pos := by rw [← hfpos, UInt64.ofNat_toNat]
    refine ⟨fs, ?_, h⟩
    rw [udfreadFileTell, hpos]
    exact .fileTell hx
  | seek hk hrun => exact h.seek hI hk hrun
  | read hk hb hrun => exact h.read hI hk hb hrun
  | readBlocks hk hrun => exact ⟨fs, h.readBlocks hI hk hrun, h.after h.cache (.refl _) _⟩
  | @fileClose k f hk =>
    obtain ⟨x, hx, -⟩ := h.file hk
    exact ⟨_, .fileClose (by simp [hx]), h.setFile k .none⟩

end SessionRefines

/-- A volume just opened has no handles. -/
theorem SessionRefines.opened {udf₀ : Udfread} (hclosed : udf₀.Closed)
    (hopen : udfreadOpenInput I fuel udf₀ s = .ok ((0, udf), s')) :
    SessionRefines media udf.part udf.rootEntries (.opened udf s') .empty := by
  have hopened := refines_opened (some ∘ media) (udfreadOpenInput_dirs hclosed hopen) s'
  exact ⟨rfl, hopened.cache, fun _ => .none, fun _ => .none⟩

/-- The calls of a run are ones of the file system. -/
theorem SessionRefines.run (hI : I.Serves media) (hvolume : SteadyVolume (some ∘ media) part root)
    (h : SessionRefines media part root st fs) {es : List Event} {st' : Session σ}
    (hrun : Run (Session.Step I) st es st') :
    ∃ fs', Run (FileSystem.Step media part root) fs es fs' ∧
      SessionRefines media part root st' fs' :=
  hrun.simulates (fun _ _ _ _ h hstep => h.step hI hvolume hstep) h

/-- Every run of calls on an opened volume is one of the file system of the image. -/
theorem session_refines (hI : I.Serves media) {udf₀ : Udfread} (hclosed : udf₀.Closed)
    (hopen : udfreadOpenInput I fuel udf₀ s = .ok ((0, udf), s'))
    (hvolume : SteadyVolume (some ∘ media) udf.part udf.rootEntries) {es : List Event}
    {st : Session σ} (hrun : Run (Session.Step I) (.opened udf s') es st) :
    ∃ fs, Run (FileSystem.Step media udf.part udf.rootEntries) .empty es fs ∧
      SessionRefines media udf.part udf.rootEntries st fs :=
  (SessionRefines.opened hclosed hopen).run hI hvolume hrun

end

/-! ### A volume with one file -/

/-- The root directory has the file "a", with two bytes. -/
def oneFileMedia : Media := fun lba =>
  (minimalVolume 7 (fun lba =>
    if lba = 301 then some (inlineDirBlock aFileFid)
    else if lba = 305 then
      some (withField 56 [2] (withField 27 [5] (inlineDirBlock [0x68, 0x69])))
    else none) lba).getD emptyBlock

def oneFileInput : BlockInput Unit := .ofImage (some ∘ oneFileMedia) none

def oneFileOpened : Udfread :=
  { subDirOpened with dirs := [{ entries := [aFile], subdirs := none }] }

theorem oneFileMedia_opened :
    udfreadOpenInput oneFileInput 3 (Udfread.init 7) () = .ok ((0, oneFileOpened), ()) := by
  decide +kernel

/-- The file is all that can be looked up. -/
theorem oneFile_selects {image : Image} {part : UdfPartitions} {names : List Bytes}
    {fid : UdfFileIdentifier} (h : Selects image part oneFileOpened.rootEntries names fid) :
    fid = aFile := by
  have hfirst : ∀ name fid, firstNamed oneFileOpened.rootEntries name = some fid → fid = aFile := by
    intro name fid h
    have hmem := List.mem_of_find?_eq_some h
    simpa [oneFileOpened, Udfread.rootEntries] using hmem
  cases h with
  | last h => exact hfirst _ _ h
  | cons h hdir _ _ =>
    rw [hfirst _ _ h] at hdir
    exact absurd rfl hdir

theorem oneFileMedia_steady :
    SteadyVolume (some ∘ oneFileMedia) oneFileOpened.part oneFileOpened.rootEntries := by
  constructor
  · intro names k fid hsel hdir
    rw [oneFile_selects hsel] at hdir
    exact absurd rfl hdir
  · intro names fid _ _ loc _
    exact extentAgrees_noMirror rfl rfl loc

def oneFileEntry : FileEntry := { length := 2, fileType := 5, u := .data [0x68, 0x69] }

theorem oneFileMedia_fileOpen :
    fileOpen oneFileInput 3 oneFileOpened aFile () =
      .ok (some (.fresh oneFileOpened.part oneFileEntry), ()) := by
  have hread : udfReadFileEntry oneFileInput 3 oneFileOpened.part aFile.icb () =
      .ok (some oneFileEntry, ()) := by
    decide +kernel
  rw [fileOpen, if_neg (by decide), Proc.bind_of_ok hread]
  rfl

theorem oneFileMedia_file :
    udfreadFileOpen oneFileInput 3 oneFileOpened [0x61] () =
      .ok ((some (aFile, .fresh oneFileOpened.part oneFileEntry), oneFileOpened), ()) := by
  have hfind : findFile oneFileInput 3 oneFileOpened [0x61] () =
      .ok ((some (none, some aFile), oneFileOpened), ()) := by
    decide +kernel
  rw [udfreadFileOpen, if_neg (by decide), Proc.bind_of_ok hfind]
  exact Proc.bind_of_ok oneFileMedia_fileOpen

/-- The root directory is listed, and the file is opened, moved in and closed. -/
theorem session_refines_oneFile : ∃ fs,
    Run (FileSystem.Step oneFileMedia oneFileOpened.part [aFile]) .empty
      [.opendir [0x2f] (some 0), .readdir 0 (some ([0x61], false)), .fileOpen [0x61] (some 4),
        .fileSize 4 2, .readdir 0 none, .seek 4 1, .closedir 0, .fileClose 4] fs := by
  have hdir : udfreadOpendir oneFileInput 3 oneFileOpened [0x2f] () =
      .ok ((some { dir := 0, currentFile := 0 }, oneFileOpened), ()) := by
    decide +kernel
  have hrun : ∃ st, Run (Session.Step oneFileInput) (.opened oneFileOpened ())
      [.opendir [0x2f] (some 0), .readdir 0 (some ([0x61], false)), .fileOpen [0x61] (some 4),
        .fileSize 4 2, .readdir 0 none, .seek 4 1, .closedir 0, .fileClose 4] st := by
    refine ⟨?last, ?run⟩
    case run =>
      refine .cons (.opendir (k := 0) (r := some _) rfl hdir) ?_
      refine .cons (.readdir rfl rfl) ?_
      refine .cons (.fileOpen (k := 4) (r := some _) rfl oneFileMedia_file) ?_
      refine .cons (.fileSize (f := .fresh oneFileOpened.part oneFileEntry) rfl) ?_
      refine .cons (.readdir rfl rfl) ?_
      refine .cons (.seek rfl (.seek 1 seekSet (by decide) (by decide) rfl)) ?_
      refine .cons (.closedir rfl) ?_
      refine .cons (.fileClose rfl) ?_
      exact .nil _
  obtain ⟨st, hrun⟩ := hrun
  obtain ⟨fs, hfs, -⟩ := session_refines (BlockInput.ofImage_serves oneFileMedia none)
    (closed_init 7) oneFileMedia_opened oneFileMedia_steady hrun
  exact ⟨fs, hfs⟩

end UdfRead
