import UdfRead.RecordedTree
import UdfRead.UdflsTermination

/-!
# UdfRead.RecordedVolume

A volume that records a directory tree, and the two programs over it. `udfls` prints the tree
(`udfls_recorded`), and `udfcat` writes the content that the tree has at a path, or nothing where it
has no file (`udfcat_recorded`).
-/

namespace UdfRead

open CModel Extents

/-- The lines of a tree whose directory has the path. -/
def DirTree.lines : DirTree → (path : Bytes) → List Line
  | nil, _ => []
  | file name content rest, path =>
    .file content.length (path ++ shownName name) :: rest.lines path
  | directory name below rest, path =>
    .directory (path ++ shownName name) ::
      (below.lines (path ++ shownName name ++ [0x2f]) ++ rest.lines path)

/-- The image holds a volume with the tree in its root directory. -/
inductive RecordsVolume (image : Image) (nblocks : Option UInt32) (select : Int) :
    (volumeIdentifier : Option Bytes) → DirTree → Prop where
  | intro {vds : VolumeDescriptorSet} {fsdLoc icb : LongAd} {part : UdfPartitions}
      {rs : List (FileIdentifier × Bytes)} {volumeIdentifier : Option Bytes} {tree : DirTree} :
      Recognized image → Locates image nblocks select vds fsdLoc part →
      RootAt image part fsdLoc icb →
      udfCs0ToMutf8 vds.pvd.volumeIdentifier = .ok volumeIdentifier →
      StoresDir image part icb rs → Records image part rs tree → tree.Proper →
      RecordsVolume image nblocks select volumeIdentifier tree

section

variable {image : Image} {nblocks : Option UInt32} {part : UdfPartitions} {udf : Udfread}
  {root entries sub done : List UdfFileIdentifier} {dir : UdfDirHandle} {fid : UdfFileIdentifier}
  {r : FileIdentifier × Bytes} {rs : List (FileIdentifier × Bytes)} {tree rest : DirTree}
  {name : List UInt16}

/-! ## Lookups in a listing -/

theorem scanDir_behind {rest : List UdfFileIdentifier} {name : Bytes}
    (hdone : ∀ e ∈ done, cString e.filename ≠ cString name)
    (hfid : cString fid.filename = cString name) :
    scanDir (done ++ fid :: rest) name = some done.length := by
  have hnone : done.findIdx? (fun e => cString name == cString e.filename) = none := by
    rw [List.findIdx?_eq_none_iff]
    intro e he
    exact beq_false_of_ne (hdone e he).symm
  rw [scanDir, List.findIdx?_append, hnone, List.findIdx?_cons, if_pos (beq_iff_eq.mpr hfid.symm)]
  simp

/-- A sub-directory of the image is opened, from the cache or from its blocks. -/
theorem udfreadOpendirAt_listed (nblocks : Option UInt32) {token : Bytes} {index : Nat}
    (hinv : CacheInv image root udf) (hfit : udf.SlotsFit) (hnode : udf.Node dir.dir entries)
    (htoken : cString token ≠ []) (hscan : scanDir entries token = some index)
    (hfid : entries[index]? = some fid) (hisdir : fid.IsDir)
    (hlist : Lists image udf.part fid.icb sub) :
    ∃ fuel child udf', udfreadOpendirAt (.ofImage image nblocks) fuel udf dir token () =
        .ok ((some child, udf'), ()) ∧
      child.currentFile = 0 ∧ udf'.Node child.dir sub ∧ CacheInv image root udf' ∧
      udf'.SlotsFit ∧ Grows udf udf' := by
  obtain ⟨d, hd, rfl⟩ := hnode
  have hcall : ∃ fuel k udf', cacheSubdir (.ofImage image nblocks) fuel udf dir.dir index () =
      .ok ((some k, udf'), ()) := by
    have hlt := (List.getElem?_eq_some_iff.mp hfid).1
    rw [← hfit dir.dir d hd] at hlt
    have hslot := List.getElem?_eq_getElem hlt
    cases hk : d.slots[index] with
    | some k =>
      let d' : UdfDir := { d with subdirs := some d.slots }
      refine ⟨0, k, { udf with dirs := udf.dirs.set dir.dir d' }, ?_⟩
      unfold cacheSubdir
      simp only [hd, hfid]
      rw [if_neg hisdir, hslot, hk]
      rfl
    | none =>
      rw [hk] at hslot
      obtain ⟨fuel, hrun⟩ := cacheSubdir_of_lists hd hfid hisdir hslot hlist nblocks
      exact ⟨fuel, _, _, hrun⟩
  obtain ⟨fuel, k, udf', hcache⟩ := hcall
  obtain ⟨hinv', hgrows, hsub⟩ := cacheSubdir_reads hinv hd hfid (fun _ _ _ _ hread hok => by
    rw [udfReadDir_image] at hread
    exact ⟨fuel, _, hread, hok⟩) hcache
  obtain ⟨-, sub', hnode', hlist'⟩ := hsub k rfl
  obtain rfl := hlist'.unique hlist
  have hopen : udfreadOpendirAt (.ofImage image nblocks) fuel udf dir token () =
      .ok ((some { dir := k, currentFile := 0 }, udf'), ()) := by
    rw [udfreadOpendirAt, if_neg htoken]
    simp only [hd, hscan]
    rw [Proc.bind_of_ok hcache]
    rfl
  exact ⟨fuel, _, udf', hopen, rfl, hnode', hinv', udfreadOpendirAt_fit hfit hopen, hgrows⟩

/-! ## The walk -/

theorem listingOf_cons (h : r.1.Names name) (hne : name ≠ []) :
    listingOf (r :: rs) = r.1.entry name :: listingOf rs :=
  List.filterMap_cons_some (listedEntry_names h hne)

theorem listingOf_parent (h : r.1.characteristic &&& charFlagParent ≠ 0) :
    listingOf (r :: rs) = listingOf rs :=
  List.filterMap_cons_none (listedEntry_none_iff.mpr (.inl h))

theorem entry_shown (h : r.1.Names name) : (r.1.entry name).shown =
    (shownName name, decide (r.1.characteristic &&& charFlagDir ≠ 0)) := by
  have hnot : ¬ (r.1.entry name).characteristic &&& charFlagParent ≠ 0 :=
    not_not_intro h.notParent
  rw [UdfFileIdentifier.shown, if_neg hnot]
  rfl

theorem entry_shown_file (h : r.1.Names name) (hplain : r.1.characteristic &&& charFlagDir = 0) :
    (r.1.entry name).shown.2 = false := by
  rw [entry_shown h]
  simpa using hplain

theorem entry_shown_directory (h : r.1.Names name)
    (hisdir : r.1.characteristic &&& charFlagDir ≠ 0) : (r.1.entry name).shown.2 = true := by
  rw [entry_shown h]
  simpa using hisdir

theorem entry_dName (h : r.1.Names name) : (r.1.entry name).dName = shownName name := by
  rw [UdfFileIdentifier.dName, entry_shown h]
  exact cString_shownName name

theorem not_isDots (h : ProperName name) : ¬ isDots (shownName name) := by
  rintro (hdot | hdots)
  · exact h.2.1 (shownName_inj.mp hdot)
  · exact h.2.2 (shownName_inj.mp hdots)

theorem shownName_ne_nil (h : ProperName name) : cString (shownName name) ≠ [] := by
  rw [cString_shownName]
  intro hnil
  exact h.1 (shownName_inj.mp (hnil.trans rfl))

/-- A stored file is opened. -/
theorem udfreadFileOpenat_stored (nblocks : Option UInt32) {token content : Bytes} {index : Nat}
    (hnode : udf.Node dir.dir entries) (htoken : cString token ≠ [])
    (hscan : scanDir entries token = some index) (hfid : entries[index]? = some fid)
    (hplain : fid.characteristic &&& charFlagDir = 0)
    (hstored : StoresFile image udf.part fid.icb content)
    (hlen : content.length ≤ (2 ^ 32 - 1) * 2048) :
    ∃ fuel fp, udfreadFileOpenat (.ofImage image nblocks) fuel udf dir token () =
        .ok ((some (fid, fp), udf), ()) ∧
      udfreadFileSize fp = content.length := by
  obtain ⟨d, hd, rfl⟩ := hnode
  obtain ⟨fuel, fe, hread, hlength, -, -⟩ := hstored.read hlen
  rw [← udfReadFileEntry_image] at hread
  have hopen : fileOpen (.ofImage image nblocks) fuel udf fid () =
      .ok (some (.fresh udf.part fe), ()) := by
    rw [fileOpen, if_neg (not_not_intro hplain), Proc.bind_of_ok hread]
    rfl
  refine ⟨fuel, .fresh udf.part fe, ?_, ?_⟩
  · rw [udfreadFileOpenat, if_neg htoken]
    simp only [hd, hscan, hfid]
    exact Proc.bind_of_ok hopen
  · rw [udfreadFileSize]
    show signed64 fe.length = _
    rw [signed64_of_lt (by omega), hlength]

/-- None of the entries has a name of the tree. -/
def NewNames (tree : DirTree) (done : List UdfFileIdentifier) : Prop :=
  ∀ name ∈ tree.names, ∀ e ∈ done, cString e.filename ≠ shownName name

theorem newNames_nil (tree : DirTree) : NewNames tree [] := fun _ _ _ he => by cases he

theorem NewNames.scanDir (h : NewNames tree done) (hmem : name ∈ tree.names) (d : FileIdentifier)
    (entries : List UdfFileIdentifier) :
    scanDir (done ++ d.entry name :: entries) (shownName name) = some done.length := by
  refine scanDir_behind (fun e he => ?_) rfl
  rw [cString_shownName]
  exact h name hmem e he

theorem NewNames.next (h : NewNames tree done) (hrest : ∀ name' ∈ rest.names,
    name' ∈ tree.names ∧ name' ≠ name) (d : FileIdentifier) :
    NewNames rest (done ++ [d.entry name]) := by
  intro name' hname' e he
  obtain ⟨hmem, hdiff⟩ := hrest name' hname'
  rcases List.mem_append.mp he with he | he
  · exact h name' hmem e he
  · rw [List.mem_singleton.mp he]
    intro hsame
    exact hdiff (shownName_inj.mp ((cString_shownName name).symm.trans hsame)).symm

theorem names_file {content : Bytes} (h : name ∉ rest.names) : ∀ name' ∈ rest.names,
    name' ∈ (DirTree.file name content rest).names ∧ name' ≠ name :=
  fun _ hmem => ⟨List.mem_cons_of_mem _ hmem, fun heq => h (heq ▸ hmem)⟩

theorem names_directory {below : DirTree} (h : name ∉ rest.names) : ∀ name' ∈ rest.names,
    name' ∈ (DirTree.directory name below rest).names ∧ name' ≠ name :=
  fun _ hmem => ⟨List.mem_cons_of_mem _ hmem, fun heq => h (heq ▸ hmem)⟩

/-- The walk stands behind the entries `done` of a directory, in front of those of `rs`. -/
structure StandsAt (image : Image) (part : UdfPartitions) (root : List UdfFileIdentifier)
    (udf : Udfread) (dir : UdfDirHandle) (done : List UdfFileIdentifier)
    (rs : List (FileIdentifier × Bytes)) (tree : DirTree) : Prop where
  table : udf.part = part
  cache : CacheInv image root udf
  fit : udf.SlotsFit
  node : udf.Node dir.dir (done ++ listingOf rs)
  current : dir.currentFile = done.length
  new : NewNames tree done

namespace StandsAt

/-- The entry it stands at is the one with its name. -/
theorem entry (h : StandsAt image part root udf dir done (r :: rs) tree) (hnames : r.1.Names name)
    (hne : name ≠ []) (hmem : name ∈ tree.names) :
    udf.Node dir.dir (done ++ r.1.entry name :: listingOf rs) ∧
      (done ++ r.1.entry name :: listingOf rs)[done.length]? = some (r.1.entry name) ∧
      scanDir (done ++ r.1.entry name :: listingOf rs) (shownName name) = some done.length := by
  have hnode := h.node
  rw [listingOf_cons hnames hne] at hnode
  exact ⟨hnode, by simp, h.new.scanDir hmem r.1 _⟩

/-- Going on to the next entry. -/
theorem next (h : StandsAt image part root udf dir done (r :: rs) tree) (hnames : r.1.Names name)
    (hne : name ≠ []) (hrest : ∀ name' ∈ rest.names, name' ∈ tree.names ∧ name' ≠ name)
    {udf' : Udfread} (hinv : CacheInv image root udf') (hfit : udf'.SlotsFit)
    (hgrows : Grows udf udf') :
    StandsAt image part root udf' dir.next (done ++ [r.1.entry name]) rs rest := by
  have hnode := hgrows.node _ _ h.node
  rw [listingOf_cons hnames hne, List.append_cons] at hnode
  refine ⟨hgrows.part.trans h.table, hinv, hfit, hnode, ?_, h.new.next hrest r.1⟩
  rw [List.length_append, ← h.current]
  rfl

end StandsAt

/-- From an entry on, the walk prints what is recorded of the directory. -/
theorem lsdirAt_records (nblocks : Option UInt32) (h : Records image part rs tree)
    (hproper : tree.Proper) (hat : StandsAt image part root udf dir done rs tree)
    (path : Bytes) :
    ∃ fuel turns udf', lsdirAt (.ofImage image nblocks) fuel turns udf dir path () =
        .ok ((tree.lines path, udf'), ()) ∧
      CacheInv image root udf' ∧ udf'.SlotsFit ∧ Grows udf udf' := by
  induction h generalizing udf dir done path with
  | nil =>
    have hend : (done ++ listingOf [])[dir.currentFile]? = none := by
      simp [listingOf, hat.current]
    refine ⟨0, 1, udf, ?_, hat.cache, hat.fit, .refl udf⟩
    rw [lsdirAt, Proc.ofRes_bind (udfreadReaddir_end hat.node hend)]
    rfl
  | @parent r rs tree hparent _ ih =>
    have hnode := hat.node
    rw [listingOf_parent hparent] at hnode
    exact ih hproper { hat with node := hnode } path
  | @file r rs tree name content hnames hplain hstored _ ih =>
    obtain ⟨hname, hnew, hlen, hproper⟩ := hproper
    obtain ⟨hnode, hfid, hscan⟩ := hat.entry hnames hname.1 (List.mem_cons_self ..)
    have hnode' : udf.Node dir.next.dir (done ++ r.1.entry name :: listingOf rs) := hnode
    have hstored' : StoresFile image udf.part (r.1.entry name).icb content := by
      rw [hat.table]
      exact hstored
    obtain ⟨fuel₁, fp, hopen, hsize⟩ := udfreadFileOpenat_stored nblocks
      hnode' (shownName_ne_nil hname) hscan hfid hplain hstored' hlen
    have hnext : StandsAt image part root udf dir.next (done ++ [r.1.entry name]) rs tree :=
      hat.next hnames hname.1 (names_file hnew) hat.cache hat.fit (.refl udf)
    obtain ⟨fuel₂, turns, udf', hrun, hinv, hfit, hgrows⟩ := ih hproper hnext path
    refine ⟨max fuel₁ fuel₂, turns + 1, udf', ?_, hinv, hfit, hgrows⟩
    rw [← hat.current] at hfid
    refine lsdirAt_of_turn hnode hfid ?_
    have hdots := not_isDots hname
    have hopen' := udfreadFileOpenat_within (le_max_left fuel₁ fuel₂) _ _ _ _ _ hopen
    have hrun' := lsdirAt_within (le_max_right fuel₁ fuel₂) (le_refl _) _ _ _ _ _ hrun
    rw [← entry_dName hnames] at hopen' hdots
    have hturn := WalkTurn.file hdots (entry_shown_file hnames hplain) hopen' hrun'
    rwa [hsize, entry_dName hnames] at hturn
  | @directory r rs sub tree below name hnames hisdir hstored hrec hrecs ihBelow ih =>
    obtain ⟨hname, hnew, hproperBelow, hproper⟩ := hproper
    obtain ⟨hnode, hfid, hscan⟩ := hat.entry hnames hname.1 (List.mem_cons_self ..)
    have hnode' : udf.Node dir.next.dir (done ++ r.1.entry name :: listingOf rs) := hnode
    have hlist : Lists image udf.part (r.1.entry name).icb (listingOf sub) := by
      rw [hat.table]
      exact hstored.lists
    obtain ⟨fuel₁, child, udf₁, hopen, hchild, hsub, hinv₁, hfit₁, hgrows₁⟩ :=
      udfreadOpendirAt_listed nblocks hat.cache hat.fit hnode' (shownName_ne_nil hname) hscan hfid
        hisdir hlist
    have hbelow : StandsAt image part root udf₁ child [] sub below :=
      ⟨hgrows₁.part.trans hat.table, hinv₁, hfit₁, hsub, hchild, newNames_nil below⟩
    obtain ⟨fuel₂, turns₂, udf₂, hrunBelow, hinv₂, hfit₂, hgrows₂⟩ :=
      ihBelow hproperBelow hbelow (path ++ shownName name ++ [0x2f])
    have hnext : StandsAt image part root udf₂ dir.next (done ++ [r.1.entry name]) rs tree :=
      hat.next hnames hname.1 (names_directory hnew) hinv₂ hfit₂ (hgrows₁.trans hgrows₂)
    obtain ⟨fuel₃, turns₃, udf', hrun, hinv, hfit, hgrows⟩ := ih hproper hnext path
    -- one fuel for opening the directory, the walk through it and the walk behind it
    obtain ⟨fuel, hfuel₁, hfuel₂, hfuel₃⟩ : ∃ fuel, fuel₁ ≤ fuel ∧ fuel₂ ≤ fuel ∧ fuel₃ ≤ fuel :=
      ⟨fuel₁ + fuel₂ + fuel₃, by omega, by omega, by omega⟩
    refine ⟨fuel, max turns₂ turns₃ + 1, udf', ?_, hinv, hfit,
      (hgrows₁.trans hgrows₂).trans hgrows⟩
    rw [← hat.current] at hfid
    refine lsdirAt_of_turn hnode hfid ?_
    have hdots := not_isDots hname
    have hopen' := udfreadOpendirAt_within hfuel₁ _ _ _ _ _ hopen
    have hbelow' := lsdirAt_within hfuel₂ (le_max_left turns₂ turns₃) _ _ _ _ _ hrunBelow
    have hrun' := lsdirAt_within hfuel₃ (le_max_right turns₂ turns₃) _ _ _ _ _ hrun
    rw [← entry_dName hnames] at hopen' hdots hbelow'
    have hturn := WalkTurn.directory hdots (entry_shown_directory hnames hisdir) hopen' hbelow' hrun'
    rwa [entry_dName hnames] at hturn

/-! ## udfls -/

theorem RecordsVolume.mounts {select : Int} {id : Option Bytes}
    (h : RecordsVolume image nblocks select id tree) :
    ∃ udf rs, Mounts image nblocks select udf ∧ udf.volumeIdentifier = id ∧
      udf.dirs = [{ entries := listingOf rs, subdirs := none }] ∧
      Records image udf.part rs tree ∧ tree.Proper := by
  obtain ⟨hrec, hloc, hroot, hid, hstored, hrecords, hproper⟩ := h
  exact ⟨_, _, .intro hrec hloc hroot hstored.lists hid, rfl, rfl, hrecords, hproper⟩

theorem rootEntries_of_dirs (h : udf.dirs = [{ entries, subdirs := none }]) :
    udf.rootEntries = entries := by
  rw [Udfread.rootEntries, h]

theorem udflsHandle_init (partition : Int) :
    udflsHandle partition = .init (udflsHandle partition).partitionToOpen := by
  unfold udflsHandle
  split
  · unfold udfreadSelectPartition
    rw [if_neg (by simp [Udfread.init])]
    split
    · rfl
    · rfl
  · rfl

theorem udfls_within {σ : Type} {I : BlockInput σ} {fuel fuel' turns turns' : Nat}
    (hle : fuel ≤ fuel') (hturns : turns ≤ turns') (option : Option Int) :
    Proc.Within (udfls I fuel turns option) (udfls I fuel' turns' option) := by
  have hopen : Proc.Within (udfreadOpenInput I fuel (udflsHandle (option.getD (-1))))
      (udfreadOpenInput I fuel' (udflsHandle (option.getD (-1)))) := by
    rw [udflsHandle_init]
    exact udfreadOpenInput_within hle
  refine hopen.bind fun x => ?_
  obtain ⟨result, udf⟩ := x
  simp only
  split
  · exact Proc.within_refl _
  · have hroot : Proc.Within (udfreadOpendir I fuel udf [0x2f])
        (udfreadOpendir I fuel' udf [0x2f]) := by
      unfold udfreadOpendir
      split
      · exact Proc.within_refl _
      · exact (findFileLoop_within hle _ _ _ _).bind fun _ => Proc.within_refl _
    refine hroot.bind fun x => ?_
    obtain ⟨_ | root, udf⟩ := x
    · exact Proc.within_refl _
    · exact (lsdirAt_within hle hturns udf root [0x2f]).bind fun _ => Proc.within_refl _

/-- The program prints the tree of the volume. -/
theorem udfls_of_recorded {option : Option Int} {id : Option Bytes}
    (h : RecordsVolume image nblocks (udflsHandle (option.getD (-1))).partitionToOpen id tree) :
    ∃ fuel turns, udfls (.ofImage image nblocks) fuel turns option () =
      .ok ((1, partitionLines option ++ .volumeId id :: tree.lines [0x2f]), ()) := by
  obtain ⟨udf, rs, hmount, rfl, hdirs, hrecords, hproper⟩ := h.mounts
  obtain ⟨n, hopen⟩ := open_of_mounts hmount
  have hroot := rootEntries_of_dirs hdirs
  have hopened := refines_opened image ⟨_, hdirs⟩ ()
  have hat : StandsAt image udf.part udf.rootEntries udf { dir := 0, currentFile := 0 } [] rs
      tree := by
    refine ⟨rfl, hopened.cache, fun i d hd => ?_, ?_, rfl, newNames_nil tree⟩
    · rw [hdirs, List.getElem?_singleton] at hd
      split at hd
      · cases hd
        simp [UdfDir.slots]
      · cases hd
    · rw [List.nil_append, ← hroot]
      exact hopened.cache.root
  obtain ⟨m, turns, udf', hrun, -⟩ := lsdirAt_records nblocks hrecords hproper hat [0x2f]
  have hopen' := udfreadOpenInput_within (le_max_left n m) _ _ hopen
  have hrun' := lsdirAt_within (le_max_right n m) (le_refl turns) _ _ _ _ _ hrun
  refine ⟨max n m, turns, ?_⟩
  rw [← udflsHandle_init] at hopen'
  refine (Proc.bind_of_ok hopen').trans ?_
  simp only
  rw [if_neg (by decide), Proc.bind_of_ok (udfreadOpendir_root hmount.leaf.1)]
  rw [List.append_cons (partitionLines option) _ (tree.lines [0x2f])]
  exact Proc.bind_of_ok hrun'

/-- Behind the number of its option, the program prints the tree of the volume and nothing else. -/
theorem udfls_recorded {option : Option Int} {id : Option Bytes}
    (h : RecordsVolume image nblocks (udflsHandle (option.getD (-1))).partitionToOpen id tree)
    (r : Int) (lines : List Line) :
    (∃ fuel turns,
      udfls (.ofImage image nblocks) fuel turns option () = .ok ((r, lines), ())) ↔
      r = 1 ∧ lines = partitionLines option ++ .volumeId id :: tree.lines [0x2f] := by
  obtain ⟨fuel, turns, hrun⟩ := udfls_of_recorded h
  constructor
  · rintro ⟨fuel', turns', hrun'⟩
    cases (udfls_within (le_max_left fuel fuel') (le_max_left turns turns') option).unique
      (udfls_within (le_max_right fuel fuel') (le_max_right turns turns') option) hrun hrun'
    exact ⟨rfl, rfl⟩
  · rintro ⟨rfl, rfl⟩
    exact ⟨fuel, turns, hrun⟩

/-! ## udfcat -/

theorem mem_of_mem_splitOnP {α : Type} {p : α → Bool} {l t : List α} {b : α}
    (ht : t ∈ l.splitOnP p) (hb : b ∈ t) : b ∈ l := by
  induction l generalizing t with
  | nil =>
    rw [List.splitOnP_nil, List.mem_singleton] at ht
    exact ht ▸ hb
  | cons a l ih =>
    rw [List.splitOnP_cons_eq_if_modifyHead] at ht
    split at ht
    · rcases List.mem_cons.mp ht with rfl | ht
      · cases hb
      · exact List.mem_cons_of_mem _ (ih ht hb)
    · cases hsplit : l.splitOnP p with
      | nil => exact absurd hsplit (List.splitOnP_ne_nil p l)
      | cons head tail =>
        rw [hsplit, List.modifyHead_cons] at ht
        rcases List.mem_cons.mp ht with rfl | ht
        · rcases List.mem_cons.mp hb with rfl | hb
          · exact List.mem_cons_self
          · exact List.mem_cons_of_mem _ (ih (hsplit ▸ List.mem_cons_self) hb)
        · exact List.mem_cons_of_mem _ (ih (hsplit ▸ List.mem_cons_of_mem _ ht) hb)

/-- A component of a path is a C string. -/
theorem cString_token {path token : Bytes} (h : token ∈ tokens path) : cString token = token := by
  refine cString_of_notMem fun hzero => ?_
  have hmem := mem_of_mem_splitOnP (List.mem_filter.mp h).1 hzero
  simpa using List.mem_takeWhile_imp hmem

theorem firstNamed_cons (hnames : r.1.Names name) (hne : name ≠ []) {token : Bytes}
    (htoken : cString token = token) :
    firstNamed (listingOf (r :: rs)) token =
      if token = shownName name then some (r.1.entry name)
      else firstNamed (listingOf rs) token := by
  rw [listingOf_cons hnames hne, firstNamed, List.find?_cons]
  have hcmp : (cString token == cString (r.1.entry name).filename) =
      decide (token = shownName name) := by
    show (cString token == cString (shownName name)) = _
    rw [htoken, cString_shownName, Bool.eq_iff_iff, beq_iff_eq, decide_eq_true_iff]
  rw [hcmp]
  split
  · rename_i h
    rw [if_pos (of_decide_eq_true h)]
  · rename_i h
    rw [if_neg (of_decide_eq_false h)]
    rfl

/-- What a component leads to in a directory with the tree. -/
inductive Leads (image : Image) (part : UdfPartitions) (tree : DirTree)
    (entries : List UdfFileIdentifier) (token : Bytes) : Prop where
  | missing : firstNamed entries token = none →
      (∀ path, tree.contentAt (token :: path) = none) → Leads image part tree entries token
  | file {fid : UdfFileIdentifier} {content : Bytes} : firstNamed entries token = some fid →
      ¬ fid.IsDir → StoresFile image part fid.icb content →
      content.length ≤ (2 ^ 32 - 1) * 2048 →
      (∀ path, tree.contentAt (token :: path) = if path = [] then some content else none) →
      Leads image part tree entries token
  | directory {fid : UdfFileIdentifier} {sub : List (FileIdentifier × Bytes)} {below : DirTree} :
      firstNamed entries token = some fid → fid.IsDir → StoresDir image part fid.icb sub →
      Records image part sub below → below.Proper →
      (∀ path, tree.contentAt (token :: path) = below.contentAt path) →
      Leads image part tree entries token

theorem Leads.congr {token : Bytes} {entries' : List UdfFileIdentifier}
    (h : Leads image part rest entries token)
    (hfirst : firstNamed entries' token = firstNamed entries token)
    (hcontent : ∀ path, tree.contentAt (token :: path) = rest.contentAt (token :: path)) :
    Leads image part tree entries' token := by
  cases h with
  | missing hnone hall =>
    exact .missing (hfirst.trans hnone) fun path => (hcontent path).trans (hall path)
  | file hfid hplain hstored hlen hall =>
    exact .file (hfirst.trans hfid) hplain hstored hlen fun path =>
      (hcontent path).trans (hall path)
  | directory hfid hisdir hstored hrec hproper hall =>
    exact .directory (hfirst.trans hfid) hisdir hstored hrec hproper fun path =>
      (hcontent path).trans (hall path)

theorem Records.leads (h : Records image part rs tree) (hproper : tree.Proper) {token : Bytes}
    (htoken : cString token = token) : Leads image part tree (listingOf rs) token := by
  induction h with
  | nil => exact .missing rfl fun _ => rfl
  | @parent r rs tree hparent _ ih =>
    rw [listingOf_parent hparent]
    exact ih hproper
  | @file r rs tree name stored hnames hplain hstored _ ih =>
    obtain ⟨hname, hnew, hlen, hproper⟩ := hproper
    by_cases hsame : token = shownName name
    · refine .file ((firstNamed_cons hnames hname.1 htoken).trans (if_pos hsame))
        (not_not_intro hplain) hstored hlen fun path => ?_
      subst hsame
      rw [DirTree.contentAt_file, DirTree.contentAt_notMem hnew]
      simp
    · refine (ih hproper).congr ((firstNamed_cons hnames hname.1 htoken).trans (if_neg hsame))
        fun path => ?_
      rw [DirTree.contentAt_file, if_neg fun heq => hsame (List.cons.inj heq).1]
  | @directory r rs sub tree below name hnames hisdir hstored hrec _ _ ih =>
    obtain ⟨hname, -, hproperBelow, hproper⟩ := hproper
    by_cases hsame : token = shownName name
    · refine .directory ((firstNamed_cons hnames hname.1 htoken).trans (if_pos hsame)) hisdir
        hstored hrec hproperBelow fun path => ?_
      rw [DirTree.contentAt_directory, if_pos hsame]
    · refine (ih hproper).congr ((firstNamed_cons hnames hname.1 htoken).trans (if_neg hsame))
        fun path => ?_
      rw [DirTree.contentAt_directory, if_neg hsame]

/-- The path of a file leads to where its content is stored. -/
theorem selects_of_records {toks : List Bytes} {content : Bytes}
    (htoks : ∀ token ∈ toks, cString token = token) (h : Records image part rs tree)
    (hproper : tree.Proper) (hcontent : tree.contentAt toks = some content) :
    ∃ fid, Selects image part (listingOf rs) toks fid ∧ ¬ fid.IsDir ∧
      StoresFile image part fid.icb content ∧ content.length ≤ (2 ^ 32 - 1) * 2048 := by
  induction toks generalizing rs tree with
  | nil =>
    rw [DirTree.contentAt_nil] at hcontent
    cases hcontent
  | cons token toks ih =>
    have hrest : ∀ token ∈ toks, cString token = token :=
      fun t ht => htoks t (List.mem_cons_of_mem _ ht)
    cases h.leads hproper (htoks token (List.mem_cons_self ..)) with
    | missing _ hall =>
      rw [hall] at hcontent
      cases hcontent
    | file hfid hplain hstored hlen hall =>
      rw [hall] at hcontent
      split at hcontent
      · rename_i hnil
        cases hcontent
        subst hnil
        exact ⟨_, .last hfid, hplain, hstored, hlen⟩
      · cases hcontent
    | directory hfid hisdir hstored hrec hproperBelow hall =>
      rw [hall] at hcontent
      obtain ⟨fid, hsel, hfile⟩ := ih hrest hrec hproperBelow hcontent
      exact ⟨fid, .cons hfid hisdir hstored.lists hsel, hfile⟩

/-- A path to nothing, or to a directory, does not lead to a file. -/
theorem findFileLoop_noFile {toks : List Bytes} (htoks : ∀ token ∈ toks, cString token = token)
    (h : Records image part rs tree) (hproper : tree.Proper)
    (hcontent : tree.contentAt toks = none) (nblocks : Option UInt32) (hpart : udf.part = part)
    {k : Nat} (hleaf : udf.Leaf k (listingOf rs)) {fid₀ : Option UdfFileIdentifier}
    (hfid₀ : ∀ fid, fid₀ = some fid → fid.IsDir) :
    ∃ fuel found udf', findFileLoop (.ofImage image nblocks) fuel toks udf k fid₀ () =
        .ok ((found, udf'), ()) ∧
      ∀ dir fid, found = some (dir, some fid) → fid.IsDir := by
  induction toks generalizing rs tree udf k fid₀ with
  | nil => exact ⟨0, _, udf, rfl, fun dir fid hfound => hfid₀ fid (by cases hfound; rfl)⟩
  | cons token toks ih =>
    have hrest : ∀ token ∈ toks, cString token = token :=
      fun t ht => htoks t (List.mem_cons_of_mem _ ht)
    let d : UdfDir := { entries := listingOf rs, subdirs := none }
    have hd : udf.dirs[k]? = some d := hleaf
    cases h.leads hproper (htoks token (List.mem_cons_self ..)) with
    | missing hnone _ =>
      have hscan : scanDir d.entries token = none := by
        rw [firstNamed, List.find?_eq_none] at hnone
        exact List.findIdx?_eq_none_iff.mpr fun e he => eq_false_of_ne_true (hnone e he)
      refine ⟨0, none, udf, ?_, fun dir fid hfound => by cases hfound⟩
      rw [findFileLoop]
      simp only [hd, hscan]
      rfl
    | @file fid content hfid hplain _ _ hall =>
      obtain ⟨index, hscan, hentry⟩ := scanDir_of_first hfid
      have hbit : ¬ fid.characteristic &&& charFlagDir ≠ 0 := hplain
      have hmore : toks ≠ [] := by
        rintro rfl
        rw [hall, if_pos rfl] at hcontent
        cases hcontent
      have hscan' : scanDir d.entries token = some index := hscan
      have hentry' : d.entries[index]? = some fid := hentry
      refine ⟨0, none, udf, ?_, fun dir fid hfound => by cases hfound⟩
      rw [findFileLoop]
      simp only [hd, hscan', hentry']
      rw [if_neg hbit, if_pos hmore]
      rfl
    | @directory fid sub below hfid hisdir hstored hrec hproperBelow hall =>
      rw [hall] at hcontent
      obtain ⟨index, hscan, hentry⟩ := scanDir_of_first hfid
      have hscan' : scanDir d.entries token = some index := hscan
      have hentry' : d.entries[index]? = some fid := hentry
      have hlist := hstored.lists
      rw [← hpart] at hlist
      let udf₁ := udf.setSlots k d (d.slots.set index (some udf.dirs.length))
        [{ entries := listingOf sub, subdirs := none }]
      have hslot := (leaf_slots hleaf hd (List.getElem?_eq_some_iff.mp hentry).1).2
      obtain ⟨n, hcache⟩ : ∃ n, cacheSubdir (.ofImage image nblocks) n udf k index () =
          .ok ((some udf.dirs.length, udf₁), ()) :=
        cacheSubdir_of_lists hd hentry' hisdir hslot hlist nblocks
      have hleaf₁ : udf₁.Leaf udf.dirs.length (listingOf sub) := setSlots_leaf _ _ _ _ _
      have hpart₁ : udf₁.part = part := hpart
      have hfid₁ : ∀ fid', some fid = some fid' → fid'.IsDir := by
        rintro _ ⟨⟩
        exact hisdir
      obtain ⟨n', found, udf', hrun, hfound⟩ := ih hrest hrec hproperBelow hcontent hpart₁ hleaf₁
        hfid₁
      refine ⟨max n n', found, udf', ?_, hfound⟩
      rw [findFileLoop]
      have hbit : fid.characteristic &&& charFlagDir ≠ 0 := hisdir
      simp only [hd, hscan', hentry']
      rw [if_pos hbit,
        Proc.bind_of_ok (cacheSubdir_within (le_max_left n n') udf k index _ _ hcache)]
      exact findFileLoop_within (le_max_right n n') _ _ _ _ _ _ hrun

theorem udfcat_within {σ : Type} {I : BlockInput σ} {fuel fuel' turns turns' : Nat}
    (hle : fuel ≤ fuel') (hturns : turns ≤ turns') (path : Bytes) :
    Proc.Within (udfcat I fuel turns path) (udfcat I fuel' turns' path) := by
  refine (udfreadOpenInput_within hle).bind fun x => ?_
  obtain ⟨result, udf⟩ := x
  simp only
  split
  · exact Proc.within_refl _
  · refine (udfreadFileOpen_within hle udf path).bind fun x => ?_
    obtain ⟨_ | ⟨_, fp⟩, _⟩ := x
    · exact Proc.within_refl _
    · exact (catLoop_within hle hturns fp _ [] 0).bind fun _ => Proc.within_refl _

/-- What `_cat` leaves behind when it has written all of a file. -/
def CatOutput.whole (content : Bytes) : CatOutput where
  written := content
  failedAt := none
  got := content.length
  size := content.length

theorem udfcat_of_content {id : Option Bytes} {path content : Bytes}
    (h : RecordsVolume image nblocks partitionFirst id tree)
    (hcontent : tree.contentAt (tokens path) = some content) :
    ∃ fuel turns, udfcat (.ofImage image nblocks) fuel turns path () =
      .ok (some (.whole content), ()) := by
  obtain ⟨udf, rs, hmount, -, hdirs, hrecords, hproper⟩ := h.mounts
  obtain ⟨fid, hsel, hplain, hstored, hlen⟩ :=
    selects_of_records (fun _ => cString_token) hrecords hproper hcontent
  obtain ⟨n, fe, hread, hlength, hkept, hbytes⟩ := hstored.read hlen
  have hroot := rootEntries_of_dirs hdirs
  rw [← hroot] at hsel
  have hfile : CatFile image nblocks path udf.part fe :=
    ⟨udf, fid, n, hmount, rfl, hsel, hplain, hread⟩
  have hrange : (UdfFile.fresh udf.part fe).InRange := by
    unfold UdfFile.InRange
    show fe.length.toNat ≤ _
    omega
  have hsize : signed64 fe.length = content.length := by
    rw [signed64_of_lt (by omega), hlength]
  have hcats : Cats image (.fresh udf.part fe) (.whole content) := by
    refine ⟨content.length, ⟨hlength.ge, hkept, .inl hlength.symm⟩, ?_⟩
    have hwritten : (List.range content.length).map
        (logicalByte (mediaOf image) (.fresh udf.part fe)) = content := by
      refine List.ext_getElem (by simp) fun x _ hx => ?_
      rw [List.getElem_map, List.getElem_range, hbytes x hx, List.getD_eq_getElem _ _ hx]
    show _ = CatOutput.mk _ (if _ < fe.length.toNat then _ else _) _ (signed64 fe.length)
    rw [hwritten, hsize, if_neg (not_lt.mpr hlength.le)]
    rfl
  obtain ⟨fuel, turns, c, hrun, hcats'⟩ := udfcat_of_catFile hfile hrange
  obtain rfl := hcats'.unique hcats
  exact ⟨fuel, turns, hrun⟩

theorem udfcat_of_noContent {id : Option Bytes} {path : Bytes}
    (h : RecordsVolume image nblocks partitionFirst id tree)
    (hcontent : tree.contentAt (tokens path) = none) :
    ∃ fuel turns, udfcat (.ofImage image nblocks) fuel turns path () = .ok (none, ()) := by
  obtain ⟨udf, rs, hmount, -, hdirs, hrecords, hproper⟩ := h.mounts
  obtain ⟨n, hopen⟩ := open_of_mounts hmount
  obtain ⟨hisopen, hleaf⟩ := hmount.leaf
  have hroot := rootEntries_of_dirs hdirs
  rw [hroot] at hleaf
  have hstart : ∀ fid : UdfFileIdentifier, none = some fid → fid.IsDir := by
    rintro _ ⟨⟩
  obtain ⟨m, found, udf', hfind, hfound⟩ := findFileLoop_noFile (fun _ => cString_token) hrecords
    hproper hcontent nblocks rfl hleaf hstart
  have hnone : udfreadFileOpen (.ofImage image nblocks) m udf path () = .ok ((none, udf'), ()) := by
    rw [udfreadFileOpen, if_neg (by simp [hisopen])]
    refine (Proc.bind_of_ok hfind).trans ?_
    rcases found with _ | ⟨dir, _ | fid⟩
    · rfl
    · rfl
    · have hisdir : fid.characteristic &&& charFlagDir ≠ 0 := hfound dir fid rfl
      have hrefused : fileOpen (.ofImage image nblocks) m udf' fid () = .ok (none, ()) := by
        rw [fileOpen, if_pos hisdir]
        rfl
      exact Proc.bind_of_ok hrefused
  refine ⟨max n m, 0, ?_⟩
  rw [udfcat, Proc.bind_of_ok (udfreadOpenInput_within (le_max_left n m) _ _ hopen)]
  simp only
  rw [if_neg (by decide),
    Proc.bind_of_ok (udfreadFileOpen_within (le_max_right n m) udf path _ _ hnone)]
  rfl

/-- The program writes the content of the file at the path, and nothing where the tree has none. -/
theorem udfcat_recorded {id : Option Bytes}
    (h : RecordsVolume image nblocks partitionFirst id tree) (path : Bytes)
    (c : Option CatOutput) :
    (∃ fuel turns, udfcat (.ofImage image nblocks) fuel turns path () = .ok (c, ())) ↔
      c = (tree.contentAt (tokens path)).map .whole := by
  obtain ⟨fuel, turns, hrun⟩ : ∃ fuel turns, udfcat (.ofImage image nblocks) fuel turns path () =
      .ok ((tree.contentAt (tokens path)).map .whole, ()) := by
    cases hcontent : tree.contentAt (tokens path) with
    | none => exact udfcat_of_noContent h hcontent
    | some content => exact udfcat_of_content h hcontent
  constructor
  · rintro ⟨fuel', turns', hrun'⟩
    cases (udfcat_within (le_max_left fuel fuel') (le_max_left turns turns') path).unique
      (udfcat_within (le_max_right fuel fuel') (le_max_right turns turns') path) hrun hrun'
    rfl
  · rintro rfl
    exact ⟨fuel, turns, hrun⟩

end

/-! ## A volume with a file in a directory -/

/-- One block of the partition. -/
def blockAd (lba : UInt32) : LongAd := { lba, length := 2048, partition := 0, extentType := 0 }

/-- A file entry with the content inside. -/
def inlineEntry (fileType : UInt8) (content : Bytes) : Nat → UInt8 :=
  withField 27 [fileType] (withField 56 (leBytes 8 content.length) (inlineDirBlock content))

/-- The entry of a file of two bytes, in block 5 of the partition. -/
def extentEntry : Nat → UInt8 :=
  withField 176 [0, 8, 0, 0, 5] (withField 172 [8] (withField 56 [2]
    (withField 20 [4] (withField 27 [5] (tagged 261)))))

/-- An identifier with a name of one character, in its encoding. -/
def shortFid (characteristic name : UInt8) (lba : UInt32) : FileIdentifier × Bytes :=
  let d : FileIdentifier := { icb := blockAd lba, characteristic, filename := [8, name] }
  (d, encodeFid d [])

/-- File "a" and directory "d". -/
def rootFids : List (FileIdentifier × Bytes) := [shortFid 0 0x61 2, shortFid 2 0x64 3]

/-- File "b". -/
def belowFids : List (FileIdentifier × Bytes) := [shortFid 0 0x62 4]

def recordedMedia : Media := fun lba =>
  (minimalVolume 7 (fun lba =>
    if lba = 301 then some (inlineEntry 4 (dirBytes rootFids))
    else if lba = 302 then some (inlineEntry 5 [0x68, 0x69])
    else if lba = 303 then some (inlineEntry 4 (dirBytes belowFids))
    else if lba = 304 then some extentEntry
    else some (withField 0 [0x79, 0x6f] emptyBlock)) lba).getD emptyBlock

def recordedTree : DirTree :=
  .file [0x61] [0x68, 0x69] (.directory [0x64] (.file [0x62] [0x79, 0x6f] .nil) .nil)

def recordedImage : Image := fun lba => some (recordedMedia lba)

def recordedVds : VolumeDescriptorSet :=
  match udfReadVds (.ofImage recordedImage none) 1 partitionFirst () with
  | .ok (some vds, _) => vds
  | _ => .zero

theorem recordedImage_placed {lba block : UInt32} (hlba : 300 + lba = block) :
    Placed (faultFree recordedImage) oneFileOpened.part (blockAd lba)
      (spanBytes recordedMedia block 1) :=
  placed_span rfl hlba (show 1 ≤ (2048 : UInt32).toNat by decide)
    (show (2048 : UInt32).toNat < 2 ^ 30 by decide)
    (show 1 = ((2048 : UInt32).toNat + 2047) / 2048 by decide)

theorem shortFid_encodes (characteristic name : UInt8) (lba : UInt32) :
    EncodesFid (shortFid characteristic name lba).1 (shortFid characteristic name lba).2 :=
  encodesFid_encodeFid (show 2 ≤ 255 by decide) (show 0 ≤ 65535 by decide)
    (show (2048 : UInt32).toNat < 2 ^ 30 by decide) (show (0 : UInt8).toNat < 4 by decide)

theorem recordedImage_inline :
    RecordsInline .fileEntry (spanBytes recordedMedia 301 1) fileTypeDir (dirBytes rootFids) ∧
      RecordsInline .fileEntry (spanBytes recordedMedia 302 1) 5 [0x68, 0x69] ∧
      RecordsInline .fileEntry (spanBytes recordedMedia 303 1) fileTypeDir
        (dirBytes belowFids) := by
  refine ⟨⟨?_, ?_, ?_, ?_, ?_, ?_, ?_, ?_, ?_⟩, ⟨?_, ?_, ?_, ?_, ?_, ?_, ?_, ?_, ?_⟩,
    ⟨?_, ?_, ?_, ?_, ?_, ?_, ?_, ?_, ?_⟩⟩ <;> decide +kernel

theorem recordedImage_extent :
    RecordsEntry .fileEntry .short 0 (spanBytes recordedMedia 304 1) 2 5
      (recorded [blockAd 5] []) := by
  refine ⟨?_, ?_, ?_, ?_, ?_, ?_, ?_, ?_, ⟨?_, ?_, ?_, ?_⟩, trivial⟩ <;> decide +kernel

theorem recordedImage_blocks :
    StoresBlocks recordedImage 300 (chainAds [blockAd 5] []) [0x79, 0x6f] := by
  have hslots : flatten adBlocks (adSlot 300) (chainAds [blockAd 5] []) = [305] := by
    decide +kernel
  have hbyte : ∀ x : Fin 2, [0x79, 0x6f].getD x.val 0 = recordedMedia 305 (x.val % 2048) := by
    decide +kernel
  intro x hx
  have hx' : x < 2 := hx
  have hzero : x / 2048 = 0 := Nat.div_eq_of_lt (by omega)
  rw [hslots, hzero]
  exact ⟨recordedMedia 305, rfl, hbyte ⟨x, hx⟩⟩

theorem recordedImage_records :
    Records recordedImage oneFileOpened.part rootFids recordedTree := by
  have hplain : Plain (chainAds [blockAd 5] []) := by
    unfold Plain
    decide
  have hbelow : Records recordedImage oneFileOpened.part belowFids
      (.file [0x62] [0x79, 0x6f] .nil) := by
    refine .file ⟨by decide, rfl, .inl rfl, rfl⟩ rfl ?_ .nil
    exact .extents (recordedImage_placed rfl) recordedImage_extent trivial hplain (by decide) rfl
      recordedImage_blocks
  have hencodes : ∀ r ∈ belowFids, EncodesFid r.1 r.2 := by
    simpa [belowFids] using shortFid_encodes 0 0x62 4
  refine .file ⟨by decide, rfl, .inl rfl, rfl⟩ rfl
    (.inline (recordedImage_placed rfl) recordedImage_inline.2.1)
    (.directory ⟨by decide, rfl, .inl rfl, rfl⟩ (by decide) ?_ hbelow .nil)
  exact .inline hencodes (recordedImage_placed rfl) recordedImage_inline.2.2

theorem recordedImage_volume :
    RecordsVolume recordedImage none partitionFirst (some []) recordedTree := by
  have hread : udfReadVds (.ofImage recordedImage none) 1 partitionFirst () =
      .ok (some recordedVds, ()) := by
    decide +kernel
  have hloc : Locates recordedImage none partitionFirst recordedVds (blockAd 0)
      oneFileOpened.part :=
    ⟨volumeSet_of_read hread, by decide +kernel, by decide +kernel, by decide +kernel,
      by decide +kernel, by decide +kernel⟩
  have hroot : udfFindRootDir (.ofImage recordedImage none) 1 oneFileOpened.part (blockAd 0) () =
      .ok (some (blockAd 1), ()) := by
    decide +kernel
  have hrecognized : Recognized recordedImage := by
    obtain ⟨b, hrun, hb⟩ := udfProbeVolume_iff recordedImage none
    have hprobe : udfProbeVolume (.ofImage recordedImage none) () = .ok (true, ()) := by
      decide +kernel
    rw [hprobe] at hrun
    cases hrun
    exact hb.mp rfl
  have hencodes : ∀ r ∈ rootFids, EncodesFid r.1 r.2 := by
    simpa [rootFids] using And.intro (shortFid_encodes 0 0x61 2) (shortFid_encodes 2 0x64 3)
  have hproper : recordedTree.Proper := by
    refine ⟨by decide, by decide, by decide, by decide, by decide, ⟨?_, ?_, ?_, trivial⟩, trivial⟩
    all_goals decide
  exact .intro hrecognized hloc (rootAt_of_found hroot) (by decide +kernel)
    (.inline hencodes (recordedImage_placed rfl) recordedImage_inline.1) recordedImage_records
    hproper

/-- With `-p -1`, which has its line and selects nothing, the lines are those of "/a", "/d" and
"/d/b". -/
theorem udfls_recordedImage : ∃ fuel turns,
    udfls (.ofImage recordedImage none) fuel turns (some (-1)) () =
      .ok ((1, [.partition (-1), .volumeId (some []), .file 2 [0x2f, 0x61],
        .directory [0x2f, 0x64], .file 2 [0x2f, 0x64, 0x2f, 0x62]]), ()) :=
  (udfls_recorded recordedImage_volume _ _).mpr ⟨rfl, by decide⟩

/-- The content of "/d/b" is written, and there is no file "/b". -/
theorem udfcat_recordedImage :
    (∃ fuel turns, udfcat (.ofImage recordedImage none) fuel turns [0x2f, 0x64, 0x2f, 0x62] () =
      .ok (some { written := [0x79, 0x6f], failedAt := none, got := 2, size := 2 }, ())) ∧
    ∃ fuel turns, udfcat (.ofImage recordedImage none) fuel turns [0x2f, 0x62] () =
      .ok (none, ()) :=
  ⟨(udfcat_recorded recordedImage_volume _ _).mpr (by decide),
    (udfcat_recorded recordedImage_volume _ _).mpr (by decide)⟩

end UdfRead
