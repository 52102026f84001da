import UdfRead.RecordedVolume

/-!
# UdfRead.RecordedFaults

The walk of `udfls` over a recorded tree, with an input that fails now and then. What it prints is
the tree, with a message in the place of what could not be opened (`lsdirAt_recorded`).
-/

namespace UdfRead

open CModel

/-- The lines of a tree of which some files and directories could not be opened. -/
inductive PartLines : DirTree → (path : Bytes) → List Line → Prop where
  | nil (path : Bytes) : PartLines .nil path []
  | file {name : List UInt16} {content path : Bytes} {rest : DirTree} {lines : List Line} :
      PartLines rest path lines →
      PartLines (.file name content rest) path
        (.file content.length (path ++ shownName name) :: lines)
  | openFileFailed {name : List UInt16} {content path : Bytes} {rest : DirTree}
      {lines : List Line} : PartLines rest path lines →
      PartLines (.file name content rest) path (.openFileFailed (path ++ shownName name) :: lines)
  | directory {name : List UInt16} {path : Bytes} {below rest : DirTree}
      {linesBelow lines : List Line} :
      PartLines below (path ++ shownName name ++ [0x2f]) linesBelow → PartLines rest path lines →
      PartLines (.directory name below rest) path
        (.directory (path ++ shownName name) :: (linesBelow ++ lines))
  | openDirFailed {name : List UInt16} {path : Bytes} {below rest : DirTree} {lines : List Line} :
      PartLines rest path lines →
      PartLines (.directory name below rest) path
        (.directory (path ++ shownName name) :: .openDirFailed (shownName name) :: lines)

/-- A message on the standard error. -/
def Line.isMessage : Line → Bool
  | openFailed | openRootFailed | openDirFailed _ | openFileFailed _ => true
  | partition _ | volumeId _ | directory _ | file _ _ => false

theorem PartLines.sublist {tree : DirTree} {path : Bytes} {lines : List Line}
    (h : PartLines tree path lines) :
    (lines.filter fun line => !line.isMessage).Sublist (tree.lines path) := by
  induction h with
  | nil path => exact .refl _
  | file _ ih =>
    rw [List.filter_cons_of_pos rfl]
    exact ih.cons_cons _
  | openFileFailed _ ih =>
    rw [List.filter_cons_of_neg Bool.false_ne_true]
    exact ih.cons _
  | directory _ _ ihBelow ih =>
    rw [List.filter_cons_of_pos rfl, List.filter_append]
    exact (ihBelow.append ih).cons_cons _
  | openDirFailed _ ih =>
    rw [List.filter_cons_of_pos rfl, List.filter_cons_of_neg Bool.false_ne_true]
    exact (ih.trans (List.sublist_append_right _ _)).cons_cons _

section

variable {image : Image} {part : UdfPartitions} {icb : LongAd} {fe g : FileEntry}
  {rs : List (FileIdentifier × Bytes)} {tree : DirTree} {content : Bytes}
  {done : List UdfFileIdentifier}

/-! ## Recorded directories under faults -/

theorem StoresDir.entryBlock (h : StoresDir image part icb rs) :
    ∃ fe, readEntryBlock (faultFree image) part icb () = .ok (some fe, ()) ∧
      fe.dropContinuation = none := by
  cases h with
  | inline _ hplaced hentry =>
    obtain ⟨_, ⟨⟩, hblock, rfl⟩ := readEntryBlock_inline hplaced hentry ()
    exact ⟨_, hblock, rfl⟩
  | extent _ hplaced hentry hplain _ _ _ =>
    obtain ⟨_, ⟨⟩, hblock, rfl⟩ := readEntryBlock_recorded hplaced hentry ()
    exact ⟨_, hblock, if_neg hplain⟩

/-- A recorded directory has no chain that could be cut. -/
theorem StoresDir.steady (h : StoresDir image part icb rs)
    (hcopies : ∀ loc, ExtentAgrees image part loc) : Steady image part icb where
  ends := by
    obtain ⟨fuel, r, hrun, -⟩ := h.lists
    exact ⟨fuel, _, hrun⟩
  copies loc _ := hcopies loc
  plain := by
    intro fe g ad hblock _ hcut
    obtain ⟨fe', hblock', hdrop⟩ := h.entryBlock
    rw [hblock'] at hblock
    cases hblock
    cases hcut with
    | here hd =>
      rw [hdrop] at hd
      cases hd
    | next hd _ _ _ =>
      rw [hdrop] at hd
      cases hd

theorem cString_cString (s : Bytes) : cString (cString s) = cString s :=
  cString_of_notMem fun h => by simpa using List.mem_takeWhile_imp h

theorem firstNamed_cString (entries : List UdfFileIdentifier) (name : Bytes) :
    firstNamed entries (cString name) = firstNamed entries name := by
  rw [firstNamed, firstNamed, cString_cString]

theorem steady_of_selects {entries : List UdfFileIdentifier} {names : List Bytes}
    {fid : UdfFileIdentifier} (hcopies : ∀ loc, ExtentAgrees image part loc)
    (hsel : Selects image part entries names fid) (hisdir : fid.IsDir)
    (h : Records image part rs tree) (hproper : tree.Proper) (hlist : entries = listingOf rs) :
    Steady image part fid.icb := by
  induction hsel generalizing rs tree with
  | @last entries name fid hfirst =>
    rw [hlist, ← firstNamed_cString] at hfirst
    cases h.leads hproper (cString_cString name) with
    | missing hnone _ =>
      rw [hnone] at hfirst
      cases hfirst
    | file hfid hplain _ _ _ =>
      rw [hfid] at hfirst
      cases hfirst
      exact absurd hisdir hplain
    | directory hfid _ hstored _ _ _ =>
      rw [hfid] at hfirst
      cases hfirst
      exact hstored.steady hcopies
  | @cons entries sub name names dir fid hfirst hdir hsub _ ih =>
    rw [hlist, ← firstNamed_cString] at hfirst
    cases h.leads hproper (cString_cString name) with
    | missing hnone _ =>
      rw [hnone] at hfirst
      cases hfirst
    | file hfid hplain _ _ _ =>
      rw [hfid] at hfirst
      cases hfirst
      exact absurd hdir hplain
    | directory hfid _ hstored hrec hproperBelow _ =>
      rw [hfid] at hfirst
      cases hfirst
      exact ih hisdir hrec hproperBelow (hsub.unique hstored.lists)

/-- A recorded tree is steady where the two copies of the metadata agree. -/
theorem Records.steadyVolume (h : Records image part rs tree) (hproper : tree.Proper)
    (hcopies : ∀ loc, ExtentAgrees image part loc) :
    SteadyVolume image part (listingOf rs) where
  dirs _ _ _ hsel hisdir := steady_of_selects hcopies hsel hisdir h hproper rfl
  files _ _ _ _ loc _ := hcopies loc

/-! ## The size of a file -/

theorem dropContinuation_length (h : fe.dropContinuation = some (icb, g)) :
    g.length = fe.length := by
  unfold FileEntry.dropContinuation at h
  split at h
  · cases h
  · split at h
    · cases h
    · split at h
      · cases h
        rfl
      · cases h

theorem decodeAllocationExtent_length {buf : Bytes} {size : Nat} {partition : UInt16}
    (h : decodeAllocationExtent fe buf size partition = .ok (some g)) : g.length = fe.length := by
  obtain ⟨lAd, -, h⟩ := Res.bind_eq_ok.mp h
  split at h
  · cases h
  · split at h
    · cases h
    · simp only at h
      split at h
      · cases h
        rfl
      · obtain ⟨ad, -, h⟩ := Res.bind_eq_ok.mp h
        cases h
        rfl

/-- A file whose chain is cut keeps its length. -/
theorem cutAt_length (h : CutAt image part fe g) : g.length = fe.length := by
  induction h with
  | here hd => exact dropContinuation_length hd
  | next hd _ hdec _ ih =>
    rw [ih, decodeAllocationExtent_length hdec, dropContinuation_length hd]

theorem StoresFile.entryBlock (h : StoresFile image part icb content)
    (hlen : content.length ≤ (2 ^ 32 - 1) * 2048) :
    ∃ fe, readEntryBlock (faultFree image) part icb () = .ok (some fe, ()) ∧
      fe.length.toNat = content.length := by
  cases h with
  | inline hplaced hentry =>
    obtain ⟨_, ⟨⟩, hblock, rfl⟩ := readEntryBlock_inline hplaced hentry ()
    exact ⟨_, hblock, UInt64.toNat_ofNat_of_lt' (by simp only [UInt64.size]; omega)⟩
  | extents hplaced hentry _ _ _ hlength _ =>
    obtain ⟨_, ⟨⟩, hblock, rfl⟩ := readEntryBlock_recorded hplaced hentry ()
    exact ⟨_, hblock, hlength⟩

theorem StoresFile.fileAt_length (h : StoresFile image part icb content)
    (hlen : content.length ≤ (2 ^ 32 - 1) * 2048) (hat : FileAt image part icb fe) :
    fe.length.toNat = content.length := by
  cases hat with
  | @whole _ n hread =>
    obtain ⟨m, fe', hread', hlength, -, -⟩ := h.read hlen
    cases (udfReadFileEntry_within (le_max_left n m)).unique
      (udfReadFileEntry_within (le_max_right n m)) hread hread'
    exact hlength
  | cut hblock hcut =>
    obtain ⟨fe', hblock', hlength⟩ := h.entryBlock hlen
    rw [hblock'] at hblock
    cases hblock
    rw [cutAt_length hcut, hlength]

/-! ## The walk -/

theorem NewNames.firstNamed {name : List UInt16} (h : NewNames tree done)
    (hmem : name ∈ tree.names) (d : FileIdentifier) (entries : List UdfFileIdentifier) :
    firstNamed (done ++ d.entry name :: entries) (shownName name) = some (d.entry name) :=
  scanDir_first (h.scanDir hmem d entries) (by simp)

/-- What is to be printed of a recorded directory is part of its lines. -/
theorem partLines_of_printed (h : Records image part rs tree) (hproper : tree.Proper)
    (hnew : NewNames tree done) {path : Bytes} {lines : List Line}
    (hprinted : Printed image part path (done ++ listingOf rs) (listingOf rs) lines) :
    PartLines tree path lines := by
  induction h generalizing done path lines with
  | nil =>
    cases hprinted
    exact .nil path
  | @parent r rs tree hparent _ ih =>
    rw [listingOf_parent hparent] at hprinted
    exact ih hproper hnew hprinted
  | @file r rs tree name content hnames hplain hstored _ ih =>
    obtain ⟨hname, hnotMem, hlen, hproper⟩ := hproper
    have hshown := entry_shown_file hnames hplain
    have hfirst := hnew.firstNamed List.mem_cons_self r.1 (listingOf rs)
    have hnext := hnew.next (names_file hnotMem) r.1
    rw [← entry_dName hnames] at hfirst
    rw [listingOf_cons hnames hname.1] at hprinted
    cases hprinted with
    | dots hdots _ => exact absurd (entry_dName hnames ▸ hdots) (not_isDots hname)
    | directory _ hdir _ _ _ _ _ =>
      rw [hshown] at hdir
      cases hdir
    | openDirFailed _ hdir _ =>
      rw [hshown] at hdir
      cases hdir
    | file _ _ hentry _ hat hrest =>
      rw [hfirst] at hentry
      cases hentry
      rw [List.append_cons] at hrest
      have hsize := hstored.fileAt_length hlen hat
      rw [entry_dName hnames, signed64_of_lt (by omega), hsize]
      exact .file (ih hproper hnext hrest)
    | openFileFailed _ _ hrest =>
      rw [List.append_cons] at hrest
      rw [entry_dName hnames]
      exact .openFileFailed (ih hproper hnext hrest)
  | @directory r rs sub tree below name hnames hisdir hstored _ _ ihBelow ih =>
    obtain ⟨hname, hnotMem, hproperBelow, hproper⟩ := hproper
    have hshown := entry_shown_directory hnames hisdir
    have hfirst := hnew.firstNamed List.mem_cons_self r.1 (listingOf rs)
    have hnext := hnew.next (names_directory hnotMem) r.1
    rw [← entry_dName hnames] at hfirst
    rw [listingOf_cons hnames hname.1] at hprinted
    cases hprinted with
    | dots hdots _ => exact absurd (entry_dName hnames ▸ hdots) (not_isDots hname)
    | directory _ _ hentry _ hlist hbelow hrest =>
      rw [hfirst] at hentry
      cases hentry
      obtain rfl := hlist.unique hstored.lists
      rw [List.append_cons] at hrest
      rw [entry_dName hnames] at hbelow ⊢
      exact .directory (ihBelow hproperBelow (newNames_nil below) hbelow) (ih hproper hnext hrest)
    | openDirFailed _ _ hrest =>
      rw [List.append_cons] at hrest
      rw [entry_dName hnames]
      exact .openDirFailed (ih hproper hnext hrest)
    | file _ hplain _ _ _ _ =>
      rw [hshown] at hplain
      cases hplain
    | openFileFailed _ hplain _ =>
      rw [hshown] at hplain
      cases hplain

/-- Whatever the input refuses once the volume is open, the walk prints no line that is not of the
tree or a message about an entry of it. -/
theorem lsdirAt_recorded {σ : Type} {I : BlockInput σ} {nblocks : Option UInt32} {select : Int}
    {id : Option Bytes} {udf udf' : Udfread} {n fuel turns : Nat} {s s' : σ} {lines : List Line}
    (h : RecordsVolume image nblocks select id tree)
    (hopen : udfreadOpenInput (.ofImage image nblocks) n (.init select) () = .ok ((0, udf), ()))
    (hcopies : ∀ loc, ExtentAgrees image udf.part loc) (hI : I.Faults image)
    (hrun : lsdirAt I fuel turns udf { dir := 0, currentFile := 0 } [0x2f] s =
      .ok ((lines, udf'), s')) :
    PartLines tree [0x2f] lines ∧
      (lines.filter fun line => !line.isMessage).Sublist (tree.lines [0x2f]) := by
  obtain ⟨udf₀, rs, hmount, -, hdirs, hrecords, hproper⟩ := h.mounts
  obtain ⟨m, hopen₀⟩ := open_of_mounts hmount
  cases (udfreadOpenInput_within (le_max_left n m)).unique
    (udfreadOpenInput_within (le_max_right n m)) hopen hopen₀
  have hroot := rootEntries_of_dirs hdirs
  have hcache := (refines_opened image ⟨_, hdirs⟩ ()).cache
  have hnode := hcache.root
  rw [hroot] at hcache hnode
  have hwalks : Walks image udf.part (listingOf rs) udf { dir := 0, currentFile := 0 }
      (listingOf rs) := ⟨rfl, hcache, hnode, [], .nil _⟩
  obtain ⟨hprinted, -, -⟩ :=
    lsdirAt_prints hI (hrecords.steadyVolume hproper hcopies) hwalks hrun
  have hpart := partLines_of_printed hrecords hproper (newNames_nil tree) hprinted
  exact ⟨hpart, hpart.sublist⟩

end

/-! ### A lost directory -/

def recordedOpened (subdirs : Option (List (Option Nat))) : Udfread :=
  { oneFileFirst with dirs := [{ entries := listingOf rootFids, subdirs }] }

/-- The entry of directory "d" is lost. -/
theorem lsdirAt_recordedImage :
    PartLines recordedTree [0x2f]
      [.file 2 [0x2f, 0x61], .directory [0x2f, 0x64], .openDirFailed [0x64]] := by
  have hopen : udfreadOpenInput (.ofImage recordedImage none) 3 (.init partitionFirst) () =
      .ok ((0, recordedOpened none), ()) := by
    decide +kernel
  have hrun : lsdirAt (faultFree (damaged recordedImage fun lba => lba == 303)) 3 4
      (recordedOpened none) { dir := 0, currentFile := 0 } [0x2f] () =
        .ok (([.file 2 [0x2f, 0x61], .directory [0x2f, 0x64], .openDirFailed [0x64]],
          recordedOpened (some [none, none])), ()) := by
    decide +kernel
  exact (lsdirAt_recorded recordedImage_volume hopen (extentAgrees_noMirror rfl rfl)
    (damaged_faults _ _) hrun).1

end UdfRead
