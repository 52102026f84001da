import UdfRead.Session

/-!
# UdfRead.Udfls

`udfls` of `examples/`, the program that lists a volume. It goes down into each sub-directory by
`udfread_opendir_at`, so all levels share the one cache of the handle. What it prints is the
directory tree of the image in pre-order, with a message in the place of whatever could not be
opened (`udfls_prints`).
-/

namespace UdfRead

open CModel

/-- A line of `udfls`, on the standard output or (`Failed`) the standard error. -/
inductive Line where
  /-- `"Partition: %d\n"` -/
  | partition (number : Int)
  /-- `"Volume ID: %s\n"` -/
  | volumeId (id : Option Bytes)
  /-- `"\t\t %s%s\n"` -/
  | directory (path : Bytes)
  /-- `"%16" PRId64 " %s%s\n"` -/
  | file (size : Int) (path : Bytes)
  /-- `"udfread_open(%s) failed\n"` -/
  | openFailed
  /-- `"error opening root directory\n"` -/
  | openRootFailed
  /-- `"error opening directory %s\n"` -/
  | openDirFailed (name : Bytes)
  /-- `"error opening file '%s%s'\n"` -/
  | openFileFailed (path : Bytes)
  deriving DecidableEq, Repr

/-- `"."` or `".."`. -/
def isDots (name : Bytes) : Prop := name = [0x2e] ∨ name = [0x2e, 0x2e]

instance (name : Bytes) : Decidable (isDots name) := inferInstanceAs (Decidable (_ ∨ _))

section

variable {σ : Type}

/-- `_lsdir_at`: the lines, with the handle of the volume after it. Nothing bounds the depth of the
recursion, so it takes fuel: `turns` entries one after the other or below each other. -/
def lsdirAt (I : BlockInput σ) (fuel : Nat) :
    (turns : Nat) → Udfread → (dir : UdfDirHandle) → (path : Bytes) → Proc σ (List Line × Udfread)
  | 0, _, _, _ => Proc.ofRes (.error .outOfFuel)
  | turns + 1, udf, dir, path => do
    match ← Proc.ofRes (udfreadReaddir udf dir) with
    | (none, _) => return ([], udf)
    | (some (dName, isDir), dir) =>
      let dName := cString dName
      if isDots dName then lsdirAt I fuel turns udf dir path
      else if isDir then
        match ← udfreadOpendirAt I fuel udf dir dName with
        | (none, udf) =>
          let (rest, udf) ← lsdirAt I fuel turns udf dir path
          return (.directory (path ++ dName) :: .openDirFailed dName :: rest, udf)
        | (some child, udf) =>
          let (below, udf) ← lsdirAt I fuel turns udf child (path ++ dName ++ [0x2f])
          let (rest, udf) ← lsdirAt I fuel turns udf dir path
          return (.directory (path ++ dName) :: (below ++ rest), udf)
      else
        match ← udfreadFileOpenat I fuel udf dir dName with
        | (none, udf) =>
          let (rest, udf) ← lsdirAt I fuel turns udf dir path
          return (.openFileFailed (path ++ dName) :: rest, udf)
        | (some (_, fp), udf) =>
          let (rest, udf) ← lsdirAt I fuel turns udf dir path
          return (.file (udfreadFileSize fp) (path ++ dName) :: rest, udf)

/-- What `udfls` prints of its option `-p`, before anything else. -/
def partitionLines : Option Int → List Line
  | none => []
  | some number => [.partition number]

/-- `main` of `udfls` over a block input, with the number behind `-p` when that is given: the exit
status and the lines. -/
def udfls (I : BlockInput σ) (fuel turns : Nat) (option : Option Int) :
    Proc σ (Int × List Line) := do
  let partition := option.getD (-1)
  let lines := partitionLines option
  let udf := Udfread.init partitionFirst
  let udf := if partition ≠ -1 then (udfreadSelectPartition udf partition).2 else udf
  let (result, udf) ← udfreadOpenInput I fuel udf
  if result < 0 then return (-1, lines ++ [.openFailed])
  let lines := lines ++ [.volumeId udf.volumeIdentifier]
  match ← udfreadOpendir I fuel udf [0x2f] with
  | (none, _) => return (1, lines ++ [.openRootFailed])
  | (some root, udf) =>
    let (tree, _) ← lsdirAt I fuel turns udf root [0x2f]
    return (1, lines ++ tree)

end

/-! ## The tree -/

/-- The name that `udfread_readdir` shows of an entry, as a C string. -/
def UdfFileIdentifier.dName (fid : UdfFileIdentifier) : Bytes := cString fid.shown.1

/-- What is to be printed of the entries `rest` of a directory of the image, whose path is given. A
name stands for the first entry of the directory that has it. -/
inductive Printed (image : Image) (part : UdfPartitions) : (path : Bytes) →
    (entries rest : List UdfFileIdentifier) → List Line → Prop where
  | nil (path : Bytes) (entries : List UdfFileIdentifier) : Printed image part path entries [] []
  | dots {path : Bytes} {entries rest : List UdfFileIdentifier} {fid : UdfFileIdentifier}
      {lines : List Line} : isDots fid.dName → Printed image part path entries rest lines →
      Printed image part path entries (fid :: rest) lines
  | directory {path : Bytes} {entries rest sub : List UdfFileIdentifier}
      {fid dir : UdfFileIdentifier} {below lines : List Line} : ¬ isDots fid.dName →
      fid.shown.2 = true → firstNamed entries fid.dName = some dir → dir.IsDir →
      Lists image part dir.icb sub →
      Printed image part (path ++ fid.dName ++ [0x2f]) sub sub below →
      Printed image part path entries rest lines →
      Printed image part path entries (fid :: rest)
        (.directory (path ++ fid.dName) :: (below ++ lines))
  | openDirFailed {path : Bytes} {entries rest : List UdfFileIdentifier} {fid : UdfFileIdentifier}
      {lines : List Line} : ¬ isDots fid.dName → fid.shown.2 = true →
      Printed image part path entries rest lines →
      Printed image part path entries (fid :: rest)
        (.directory (path ++ fid.dName) :: .openDirFailed fid.dName :: lines)
  | file {path : Bytes} {entries rest : List UdfFileIdentifier} {fid file : UdfFileIdentifier}
      {fe : FileEntry} {lines : List Line} : ¬ isDots fid.dName → fid.shown.2 = false →
      firstNamed entries fid.dName = some file → ¬ file.IsDir → FileAt image part file.icb fe →
      Printed image part path entries rest lines →
      Printed image part path entries (fid :: rest)
        (.file (signed64 fe.length) (path ++ fid.dName) :: lines)
  | openFileFailed {path : Bytes} {entries rest : List UdfFileIdentifier} {fid : UdfFileIdentifier}
      {lines : List Line} : ¬ isDots fid.dName → fid.shown.2 = false →
      Printed image part path entries rest lines →
      Printed image part path entries (fid :: rest) (.openFileFailed (path ++ fid.dName) :: lines)

section

variable {σ : Type} {I : BlockInput σ} {image : Image} {part : UdfPartitions} {udf udf' : Udfread}
  {fuel turns : Nat} {s s' : σ} {root entries : List UdfFileIdentifier} {dir : UdfDirHandle}
  {path : Bytes} {lines : List Line}

/-- The ways a call of `_lsdir_at` goes on from an entry. -/
inductive WalkTurn (I : BlockInput σ) (fuel turns : Nat) (udf : Udfread) (dir : UdfDirHandle)
    (path : Bytes) (fid : UdfFileIdentifier) (s : σ) : List Line → Udfread → σ → Prop where
  | dots {lines : List Line} {udf' : Udfread} {s' : σ} : isDots fid.dName →
      lsdirAt I fuel turns udf dir path s = .ok ((lines, udf'), s') →
      WalkTurn I fuel turns udf dir path fid s lines udf' s'
  | directory {child : UdfDirHandle} {below rest : List Line} {udf₁ udf₂ udf' : Udfread}
      {s₁ s₂ s' : σ} : ¬ isDots fid.dName → fid.shown.2 = true →
      udfreadOpendirAt I fuel udf dir fid.dName s = .ok ((some child, udf₁), s₁) →
      lsdirAt I fuel turns udf₁ child (path ++ fid.dName ++ [0x2f]) s₁ =
        .ok ((below, udf₂), s₂) →
      lsdirAt I fuel turns udf₂ dir path s₂ = .ok ((rest, udf'), s') →
      WalkTurn I fuel turns udf dir path fid s (.directory (path ++ fid.dName) :: (below ++ rest))
        udf' s'
  | openDirFailed {rest : List Line} {udf₁ udf' : Udfread} {s₁ s' : σ} : ¬ isDots fid.dName →
      fid.shown.2 = true →
      udfreadOpendirAt I fuel udf dir fid.dName s = .ok ((none, udf₁), s₁) →
      lsdirAt I fuel turns udf₁ dir path s₁ = .ok ((rest, udf'), s') →
      WalkTurn I fuel turns udf dir path fid s
        (.directory (path ++ fid.dName) :: .openDirFailed fid.dName :: rest) udf' s'
  | file {file : UdfFileIdentifier} {fp : UdfFile} {rest : List Line} {udf₁ udf' : Udfread}
      {s₁ s' : σ} : ¬ isDots fid.dName → fid.shown.2 = false →
      udfreadFileOpenat I fuel udf dir fid.dName s = .ok ((some (file, fp), udf₁), s₁) →
      lsdirAt I fuel turns udf₁ dir path s₁ = .ok ((rest, udf'), s') →
      WalkTurn I fuel turns udf dir path fid s
        (.file (udfreadFileSize fp) (path ++ fid.dName) :: rest) udf' s'
  | openFileFailed {rest : List Line} {udf₁ udf' : Udfread} {s₁ s' : σ} : ¬ isDots fid.dName →
      fid.shown.2 = false →
      udfreadFileOpenat I fuel udf dir fid.dName s = .ok ((none, udf₁), s₁) →
      lsdirAt I fuel turns udf₁ dir path s₁ = .ok ((rest, udf'), s') →
      WalkTurn I fuel turns udf dir path fid s (.openFileFailed (path ++ fid.dName) :: rest) udf' s'

/-- The handle behind the entry it stands at. -/
def UdfDirHandle.next (dir : UdfDirHandle) : UdfDirHandle :=
  { dir with currentFile := dir.currentFile + 1 }

theorem udfreadReaddir_entry {fid : UdfFileIdentifier} (hnode : udf.Node dir.dir entries)
    (hfid : entries[dir.currentFile]? = some fid) :
    udfreadReaddir udf dir = .ok (some fid.shown, dir.next) := by
  obtain ⟨d, hd, rfl⟩ := hnode
  unfold udfreadReaddir
  simp only [hd, hfid]
  rfl

theorem udfreadReaddir_end (hnode : udf.Node dir.dir entries)
    (hend : entries[dir.currentFile]? = none) : udfreadReaddir udf dir = .ok (none, dir) := by
  obtain ⟨d, hd, rfl⟩ := hnode
  unfold udfreadReaddir
  simp only [hd, hend]

theorem lsdirAt_cases (hnode : udf.Node dir.dir entries)
    (hrun : lsdirAt I fuel (turns + 1) udf dir path s = .ok ((lines, udf'), s')) :
    (entries[dir.currentFile]? = none ∧ lines = [] ∧ udf' = udf ∧ s' = s) ∨
    ∃ fid, entries[dir.currentFile]? = some fid ∧
      WalkTurn I fuel turns udf dir.next path fid s lines udf' s' := by
  rw [lsdirAt] at hrun
  cases hfid : entries[dir.currentFile]? with
  | none =>
    rw [Proc.ofRes_bind (udfreadReaddir_end hnode hfid)] at hrun
    cases hrun
    exact .inl ⟨rfl, rfl, rfl, rfl⟩
  | some fid =>
    rw [Proc.ofRes_bind (udfreadReaddir_entry hnode hfid)] at hrun
    refine .inr ⟨fid, rfl, ?_⟩
    simp only at hrun
    split at hrun
    · exact .dots ‹_› hrun
    · rename_i hdots
      split at hrun
      · rename_i hdir
        obtain ⟨⟨child, udf₁⟩, s₁, hopen, hrun⟩ := Proc.bind_eq_ok.mp hrun
        cases child with
        | none =>
          obtain ⟨⟨rest, udf₂⟩, s₂, hrest, hrun⟩ := Proc.bind_eq_ok.mp hrun
          cases hrun
          exact .openDirFailed hdots hdir hopen hrest
        | some child =>
          obtain ⟨⟨below, udf₂⟩, s₂, hbelow, hrun⟩ := Proc.bind_eq_ok.mp hrun
          obtain ⟨⟨rest, udf₃⟩, s₃, hrest, hrun⟩ := Proc.bind_eq_ok.mp hrun
          cases hrun
          exact .directory hdots hdir hopen hbelow hrest
      · rename_i hdir
        obtain ⟨⟨file, udf₁⟩, s₁, hopen, hrun⟩ := Proc.bind_eq_ok.mp hrun
        cases file with
        | none =>
          obtain ⟨⟨rest, udf₂⟩, s₂, hrest, hrun⟩ := Proc.bind_eq_ok.mp hrun
          cases hrun
          exact .openFileFailed hdots (by simpa using hdir) hopen hrest
        | some x =>
          obtain ⟨file, fp⟩ := x
          obtain ⟨⟨rest, udf₂⟩, s₂, hrest, hrun⟩ := Proc.bind_eq_ok.mp hrun
          cases hrun
          exact .file hdots (by simpa using hdir) hopen hrest

/-- What is left of a listing at an entry. -/
theorem drop_next {fid : UdfFileIdentifier} (hfid : entries[dir.currentFile]? = some fid) :
    entries.drop dir.currentFile = fid :: entries.drop dir.next.currentFile := by
  obtain ⟨hlt, rfl⟩ := List.getElem?_eq_some_iff.mp hfid
  exact List.drop_eq_getElem_cons hlt

/-- The walk goes through the listing of a directory of the image. -/
structure Walks (image : Image) (part : UdfPartitions) (root : List UdfFileIdentifier)
    (udf : Udfread) (dir : UdfDirHandle) (entries : List UdfFileIdentifier) : Prop where
  table : udf.part = part
  cache : CacheInv image root udf
  node : udf.Node dir.dir entries
  path : ∃ names, Resolves image part root names entries

theorem Walks.next (h : Walks image part root udf dir entries) :
    Walks image part root udf dir.next entries := ⟨h.table, h.cache, h.node, h.path⟩

theorem Walks.after (h : Walks image part root udf dir entries) (hinv : CacheInv image root udf')
    (hgrows : Grows udf udf') : Walks image part root udf' dir entries :=
  ⟨hgrows.part.trans h.table, hinv, hgrows.node _ _ h.node, h.path⟩

/-- A sub-directory that could be opened is one of the image, and the walk goes through it. -/
theorem Walks.child (hI : I.Faults image) (hvolume : SteadyVolume image part root)
    (h : Walks image part root udf dir entries) {name : Bytes} {r : Option UdfDirHandle}
    (hrun : udfreadOpendirAt I fuel udf dir name s = .ok ((r, udf'), s')) :
    Walks image part root udf' dir entries ∧ Grows udf udf' ∧ ∀ child, r = some child →
      child.currentFile = 0 ∧ ∃ fid sub, firstNamed entries name = some fid ∧ fid.IsDir ∧
        Lists image part fid.icb sub ∧ Walks image part root udf' child sub := by
  obtain ⟨names, hpath⟩ := h.path
  have hsteady : ∀ fid, firstNamed entries name = some fid → fid.IsDir →
      Steady image udf.part fid.icb := by
    intro fid hfid hisdir
    rw [h.table]
    exact (hvolume.dirs (names ++ [name])).last hpath hfid hisdir
  obtain ⟨hinv, hgrows, hr⟩ := udfreadOpendirAt_inv hI h.cache h.node hsteady hrun
  have hafter := h.after hinv hgrows
  refine ⟨hafter, hgrows, fun child hchild => ?_⟩
  subst hchild
  obtain ⟨fid, sub, hfirst, hisdir, hnode, hlist⟩ := hr child rfl
  rw [h.table] at hlist
  have hsub := hpath.snoc hfirst hisdir hlist
  exact ⟨udfreadOpendirAt_current hrun, fid, sub, hfirst, hisdir, hlist,
    ⟨hafter.table, hinv, hnode, _, hsub⟩⟩

/-- A file that could be opened is one of the image. -/
theorem Walks.file (hI : I.Faults image) (hvolume : SteadyVolume image part root)
    (h : Walks image part root udf dir entries) {name : Bytes}
    {r : Option (UdfFileIdentifier × UdfFile)}
    (hrun : udfreadFileOpenat I fuel udf dir name s = .ok ((r, udf'), s')) :
    udf' = udf ∧ ∀ fid fp, r = some (fid, fp) → firstNamed entries name = some fid ∧ ¬ fid.IsDir ∧
      FileAt image part fid.icb fp.fe := by
  obtain ⟨names, hpath⟩ := h.path
  obtain ⟨rfl, hfirst⟩ := udfreadFileOpenat_inv h.node hrun
  refine ⟨rfl, fun fid fp hr => ?_⟩
  subst hr
  have hname := hfirst fid fp rfl
  obtain ⟨-, hr | ⟨d, index, fi, file, -, -, -, hopen, hfile⟩⟩ := udfreadFileOpenat_cases hrun
  · cases hr
  · obtain ⟨g, rfl, hg⟩ := Option.map_eq_some_iff.mp hfile.symm
    cases hg
    have hagree := hvolume.files _ _ (.snoc hpath hname)
    rw [← h.table] at hagree
    obtain ⟨hdir, fe, rfl, hfe, -⟩ := fileOpen_fileAt hI hagree hopen
    rw [h.table] at hfe
    exact ⟨hname, hdir, hfe⟩

/-- A call of `_lsdir_at` prints what is left of its directory, with all that is below. -/
theorem lsdirAt_prints (hI : I.Faults image) (hvolume : SteadyVolume image part root)
    (h : Walks image part root udf dir entries)
    (hrun : lsdirAt I fuel turns udf dir path s = .ok ((lines, udf'), s')) :
    Printed image part path entries (entries.drop dir.currentFile) lines ∧
      CacheInv image root udf' ∧ Grows udf udf' := by
  induction turns generalizing udf dir entries path lines udf' s s' with
  | zero => cases hrun
  | succ turns ih =>
    obtain ⟨hend, rfl, rfl, rfl⟩ | ⟨fid, hfid, hturn⟩ := lsdirAt_cases h.node hrun
    · rw [List.drop_eq_nil_of_le (List.getElem?_eq_none_iff.mp hend)]
      exact ⟨.nil path entries, h.cache, .refl _⟩
    · rw [drop_next hfid]
      cases hturn with
      | dots hdots hrest =>
        obtain ⟨hprinted, hinv, hgrows⟩ := ih h.next hrest
        exact ⟨.dots hdots hprinted, hinv, hgrows⟩
      | directory hdots hdir hopen hbelow hrest =>
        obtain ⟨h₁, hgrows₁, hchild⟩ := h.next.child hI hvolume hopen
        obtain ⟨hstart, fid', sub, hfirst, hisdir, hlist, hsub⟩ := hchild _ rfl
        obtain ⟨hprintedSub, hinv₂, hgrows₂⟩ := ih hsub hbelow
        obtain ⟨hprinted, hinv, hgrows⟩ := ih (h₁.after hinv₂ hgrows₂) hrest
        rw [hstart, List.drop_zero] at hprintedSub
        exact ⟨.directory hdots hdir hfirst hisdir hlist hprintedSub hprinted, hinv,
          (hgrows₁.trans hgrows₂).trans hgrows⟩
      | openDirFailed hdots hdir hopen hrest =>
        obtain ⟨h₁, hgrows₁, -⟩ := h.next.child hI hvolume hopen
        obtain ⟨hprinted, hinv, hgrows⟩ := ih h₁ hrest
        exact ⟨.openDirFailed hdots hdir hprinted, hinv, hgrows₁.trans hgrows⟩
      | file hdots hdir hopen hrest =>
        obtain ⟨rfl, hfile⟩ := h.next.file hI hvolume hopen
        obtain ⟨hfirst, hisdir, hfe⟩ := hfile _ _ rfl
        obtain ⟨hprinted, hinv, hgrows⟩ := ih h.next hrest
        exact ⟨.file hdots hdir hfirst hisdir hfe hprinted, hinv, hgrows⟩
      | openFileFailed hdots hdir hopen hrest =>
        obtain ⟨rfl, -⟩ := h.next.file hI hvolume hopen
        obtain ⟨hprinted, hinv, hgrows⟩ := ih h.next hrest
        exact ⟨.openFileFailed hdots hdir hprinted, hinv, hgrows⟩

/-- The handle that `udfls` opens. -/
def udflsHandle (partition : Int) : Udfread :=
  if partition ≠ -1 then (udfreadSelectPartition (.init partitionFirst) partition).2
  else .init partitionFirst

theorem udflsHandle_closed (partition : Int) : (udflsHandle partition).Closed := by
  unfold udflsHandle
  split
  · unfold udfreadSelectPartition
    rw [if_neg (by simp [Udfread.init])]
    split
    · exact closed_init _
    · exact ⟨rfl, [], rfl⟩
  · exact closed_init _

/-- Opening "/" gives the root directory, and needs no block. -/
theorem udfreadOpendir_root (hopen : udf.isOpen = true) :
    udfreadOpendir I fuel udf [0x2f] s = .ok ((some { dir := 0, currentFile := 0 }, udf), s) := by
  have htokens : tokens [0x2f] = [] := by decide
  have hcond : ¬ (!udf.isOpen || cString [0x2f] = []) := by
    rw [hopen]
    decide
  unfold udfreadOpendir findFile
  rw [if_neg hcond, htokens]
  rfl

theorem openRoot_result (udf : Udfread) (fsdLocation : LongAd) :
    Proc.Gives (openRoot I fuel udf fsdLocation) fun x =>
      x.1 = -1 ∨ x.1 = 0 ∧ x.2.isOpen = true := by
  refine (Proc.gives_true _).bind fun found _ => ?_
  cases found with
  | none => exact Proc.gives_pure (.inl rfl)
  | some rootIcb =>
    refine (Proc.gives_true _).bind fun read _ => ?_
    simp only
    split
    · exact Proc.gives_pure (.inl rfl)
    · exact Proc.gives_pure (.inr ⟨rfl, rfl⟩)

/-- Opening fails, or returns 0 and leaves an open handle. -/
theorem udfreadOpenInput_result (udf : Udfread) :
    Proc.Gives (udfreadOpenInput I fuel udf) fun x => x.1 = -1 ∨ x.1 = 0 ∧ x.2.isOpen = true := by
  unfold udfreadOpenInput
  split
  · exact Proc.gives_pure (.inl rfl)
  · refine (Proc.gives_true _).bind fun probed _ => ?_
    cases probed with
    | false => exact Proc.gives_pure (.inl rfl)
    | true =>
      refine (Proc.gives_true _).bind fun vds _ => ?_
      cases vds with
      | none => exact Proc.gives_pure (.inl rfl)
      | some vds =>
        refine (Proc.gives_true _).bind fun valid _ => ?_
        cases valid with
        | none => exact Proc.gives_pure (.inl rfl)
        | some fsdLocation =>
          refine (Proc.gives_true _).bind fun volumeIdentifier _ => ?_
          refine (Proc.gives_true _).bind fun maps _ => ?_
          obtain ⟨ok, part⟩ := maps
          cases ok with
          | false => exact Proc.gives_pure (.inl rfl)
          | true => exact openRoot_result _ fsdLocation

/-- Behind the number of its option, `udfls` says that opening has failed, or it prints the volume
identifier and the tree of the image from the root directory on. -/
theorem udfls_prints (hI : I.Faults image) {option : Option Int} {r : Int}
    (hvolume : ∀ udf s₁,
      udfreadOpenInput I fuel (udflsHandle (option.getD (-1))) s = .ok ((0, udf), s₁) →
      SteadyVolume image udf.part udf.rootEntries)
    (hrun : udfls I fuel turns option s = .ok ((r, lines), s')) :
    (r = -1 ∧ lines = partitionLines option ++ [.openFailed]) ∨
    (r = 1 ∧ ∃ udf s₁ tree,
      udfreadOpenInput I fuel (udflsHandle (option.getD (-1))) s = .ok ((0, udf), s₁) ∧
      lines = partitionLines option ++ .volumeId udf.volumeIdentifier :: tree ∧
      Printed image udf.part [0x2f] udf.rootEntries udf.rootEntries tree) := by
  obtain ⟨⟨result, udf⟩, s₁, hopen, hrun⟩ := Proc.bind_eq_ok.mp hrun
  obtain hfailed | ⟨hresult, hisOpen⟩ := udfreadOpenInput_result _ _ _ _ hopen
  · simp only at hfailed
    subst hfailed
    cases hrun
    exact .inl ⟨rfl, rfl⟩
  · simp only at hresult hisOpen
    subst hresult
    simp only at hrun
    rw [if_neg (lt_irrefl 0), Proc.bind_of_ok (udfreadOpendir_root hisOpen)] at hrun
    obtain ⟨⟨tree, udf₂⟩, s₂, htree, hrun⟩ := Proc.bind_eq_ok.mp hrun
    cases hrun
    have hdirs := udfreadOpenInput_dirs (udflsHandle_closed _) hopen
    have hopened := refines_opened image hdirs s₁
    have hstart : Walks image udf.part udf.rootEntries udf { dir := 0, currentFile := 0 }
        udf.rootEntries :=
      ⟨rfl, hopened.cache, hopened.cache.root, [], .nil _⟩
    obtain ⟨hprinted, -, -⟩ := lsdirAt_prints hI (hvolume udf s₁ hopen) hstart htree
    exact .inr ⟨rfl, udf, s₁, tree, hopen, (List.append_cons ..).symm, hprinted⟩

end

/-- The volume with one file, opened by the number of its partition: the line of the file is all that
is below the root directory. -/
theorem udfls_prints_oneFile :
    Printed (some ∘ oneFileMedia) oneFileOpened.part [0x2f] [aFile] [aFile]
      [.file 2 [0x2f, 0x61]] := by
  have hrun : udfls oneFileInput 3 5 (some 7) () =
      .ok ((1, [.partition 7, .volumeId (some []), .file 2 [0x2f, 0x61]]), ()) := by
    decide +kernel
  have hhandle : udflsHandle ((some 7 : Option Int).getD (-1)) = .init 7 := rfl
  have hopened : ∀ udf s₁, udfreadOpenInput oneFileInput 3
      (udflsHandle ((some 7 : Option Int).getD (-1))) () = .ok ((0, udf), s₁) →
      udf = oneFileOpened := by
    intro udf s₁ h
    rw [hhandle, oneFileMedia_opened] at h
    cases h
    rfl
  obtain ⟨hr, -⟩ | ⟨-, udf, s₁, tree, hopen, hlines, htree⟩ :=
    udfls_prints (BlockInput.ofImage_serves oneFileMedia none).faults
      (fun udf s₁ h => by rw [hopened udf s₁ h]; exact oneFileMedia_steady) hrun
  · cases hr
  · obtain rfl := hopened udf s₁ hopen
    cases hlines
    exact htree

end UdfRead
