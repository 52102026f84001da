import UdfRead.LookupRuns
import UdfRead.Lib.Lockstep

/-!
# UdfRead.Reopen

Opening a volume on a handle that failed to open another one. Only the parts of the partition table
that are mapped are read, so a handle whose old metadata locations and root entries are empty opens
in lockstep with a fresh one. Others may not (`failedOpen_iff`).
-/

namespace UdfRead

open CModel

section

variable {σ : Type} {I : BlockInput σ} {part part' : UdfPartitions}

/-! ## The mapped partitions -/

theorem readMetadataBlocks_congr (h : partitionOf part = partitionOf part') :
    readMetadataBlocks I part = readMetadataBlocks I part' := by
  funext loc
  rw [readMetadataBlocks, readMetadataBlocks, h]

theorem readMetadata_congr (h : partitionOf part = partitionOf part') :
    readMetadata I part = readMetadata I part' := by
  funext icb
  rw [readMetadata, readMetadata, readMetadataBlocks_congr h]

theorem readExtents_congr (h : partitionOf part = partitionOf part') (fuel : Nat) :
    readExtents I part fuel = readExtents I part' fuel := by
  induction fuel with
  | zero => rfl
  | succ fuel ih =>
    funext fe
    rw [readExtents, readExtents, readMetadata_congr h, ih]

theorem udfReadFileEntry_congr (h : partitionOf part = partitionOf part') (fuel : Nat) :
    udfReadFileEntry I fuel part = udfReadFileEntry I fuel part' := by
  funext icb
  unfold udfReadFileEntry readFileEntryChain readEntryBlock
  rw [readMetadata_congr h, readExtents_congr h]

theorem udfReadDir_congr (h : partitionOf part = partitionOf part') (fuel : Nat) :
    udfReadDir I fuel part = udfReadDir I fuel part' := by
  funext icb dir
  unfold udfReadDir readDirOf readDirFile
  rw [udfReadFileEntry_congr h, readMetadata_congr h]

theorem udfFindRootDir_congr (h : partitionOf part = partitionOf part') (fuel : Nat) :
    udfFindRootDir I fuel part = udfFindRootDir I fuel part' := by
  have hloop : ∀ fsdLoc last fuel,
      findRootDirLoop I part fsdLoc last fuel = findRootDirLoop I part' fsdLoc last fuel := by
    intro fsdLoc last fuel
    induction fuel with
    | zero => rfl
    | succ fuel ih =>
      funext lba
      rw [findRootDirLoop, findRootDirLoop, readMetadataBlocks_congr h, ih]
  funext fsdLoc
  rw [udfFindRootDir, udfFindRootDir, hloop]

/-- Two partition tables while the maps are walked, after `n` type 1 maps: the locations of the
metadata partition are the same, and from the first type 1 map on so is what is mapped. -/
structure TableAlike (n : Nat) (part part' : UdfPartitions) : Prop where
  lba : part'.p1.lba = part.p1.lba
  mirrorLba : part'.p1.mirrorLba = part.p1.mirrorLba
  count : n ≠ 0 → part'.numPartition = part.numPartition
  first : n ≠ 0 → part'.p0 = part.p0
  number : n ≠ 0 → part.numPartition > 1 → part'.p1.number = part.p1.number

variable {n : Nat}

theorem TableAlike.second (h : TableAlike n part part') (hn : n ≠ 0)
    (hcount : part.numPartition > 1) : part'.p1 = part.p1 := by
  have hnumber := h.number hn hcount
  have hlba := h.lba
  have hmirror := h.mirrorLba
  cases hp : part.p1
  cases hp' : part'.p1
  simp_all

theorem TableAlike.partitionOf (h : TableAlike n part part') (hn : n ≠ 0) :
    partitionOf part = partitionOf part' := by
  funext number
  unfold UdfRead.partitionOf
  rw [h.first hn, h.count hn]
  by_cases hcount : part.numPartition > 1
  · rw [h.second hn hcount]
  · simp only [hcount, false_and, if_false]

/-! ## Partition maps -/

theorem mapMetadataCopy_lockstep (h : TableAlike n part part') (lba : UInt32)
    (pd : PartitionDescriptor) :
    Proc.Lockstep (TableAlike n) (mapMetadataCopy I part lba pd)
      (mapMetadataCopy I part' lba pd) := by
  refine Proc.lockstep_bind _ fun r => ?_
  obtain ⟨tag, buf⟩ := r
  by_cases htag : tag = .extendedFileEntry
  · simp only [htag, ne_eq, not_true, if_false]
    refine Proc.lockstep_bind _ fun fe => ?_
    cases fe with
    | none => exact Proc.lockstep_pure h
    | some fe =>
      cases hu : fe.u with
      | data content =>
        simp only [hu]
        exact Proc.lockstep_pure h
      | ads t ads =>
        cases ads with
        | nil =>
          simp only [hu]
          exact Proc.lockstep_pure h
        | cons ad rest =>
          simp only [hu]
          split
          · exact Proc.lockstep_pure ⟨rfl, h.mirrorLba, h.count, h.first, h.number⟩
          · split
            · exact Proc.lockstep_pure ⟨h.lba, rfl, h.count, h.first, h.number⟩
            · exact Proc.lockstep_pure h
  · simp only [ne_eq, htag, not_false_iff, if_true]
    exact Proc.lockstep_pure h

theorem mapMetadataPartition_lockstep (h : TableAlike n part part') (lba mirrorLba : UInt32)
    (pd : PartitionDescriptor) :
    Proc.Lockstep (fun r r' => r'.1 = r.1 ∧ TableAlike n r.2 r'.2)
      (mapMetadataPartition I part lba mirrorLba pd)
      (mapMetadataPartition I part' lba mirrorLba pd) := by
  refine (mapMetadataCopy_lockstep h lba pd).bind fun part₁ part₁' h₁ => ?_
  refine (mapMetadataCopy_lockstep h₁ mirrorLba pd).bind fun part₂ part₂' h₂ => ?_
  simp only [h₂.lba, h₂.mirrorLba]
  by_cases hmirror : part₂.p1.lba = 0 ∧ part₂.p1.mirrorLba ≠ 0
  · simp only [if_pos hmirror]
    exact Proc.lockstep_pure ⟨rfl, rfl, rfl, h₂.count, h₂.first, h₂.number⟩
  · simp only [if_neg hmirror, h₂.lba]
    exact Proc.lockstep_pure ⟨rfl, h₂⟩

/-- The results of one map, or of the walk: the same number of type 1 maps, and tables alike. -/
def MapsAlike (r r' : UdfPartitions × Nat) : Prop := r'.2 = r.2 ∧ TableAlike r.2 r.1 r'.1

theorem parsePartitionMap_lockstep (h : TableAlike n part part') (vds : VolumeDescriptorSet)
    (i map len : Nat) :
    Proc.Lockstep (Option.Rel MapsAlike) (parsePartitionMap I vds i map len part n)
      (parsePartitionMap I vds i map len part' n) := by
  refine Proc.lockstep_bind _ fun type => ?_
  have hkeep : Proc.Lockstep (Option.Rel MapsAlike) (pure (some (part, n)) : Proc σ _)
      (pure (some (part', n))) := Proc.lockstep_pure (.some ⟨rfl, h⟩)
  have hbreak : Proc.Lockstep (Option.Rel MapsAlike) (pure none : Proc σ _) (pure none) :=
    Proc.lockstep_pure .none
  split
  · split
    · exact hbreak
    · refine Proc.lockstep_bind _ fun ref => ?_
      by_cases hn : n = 0
      · subst hn
        simp only [ne_eq, not_true, if_false]
        split
        · exact hkeep
        · refine Proc.lockstep_pure (.some ⟨rfl, h.lba, h.mirrorLba, fun _ => rfl, fun _ => rfl, ?_⟩)
          intro _ hcount
          exact absurd hcount (show ¬ (1 : UInt32) > 1 by decide)
      · simp only [ne_eq, hn, not_false_iff, if_true]
        exact hkeep
  · split
    · split
      · exact hbreak
      · refine Proc.lockstep_bind _ fun typeId => ?_
        split
        · exact hkeep
        · refine Proc.lockstep_bind _ fun _ => Proc.lockstep_bind _ fun lba =>
            Proc.lockstep_bind _ fun mirrorLba => ?_
          refine (mapMetadataPartition_lockstep h lba mirrorLba vds.pd).bind fun r r' hr => ?_
          obtain ⟨found, part₁⟩ := r
          obtain ⟨found', part₁'⟩ := r'
          obtain ⟨rfl, h₁⟩ := hr
          simp only
          split
          · exact Proc.lockstep_pure (.some ⟨rfl, h₁⟩)
          · exact Proc.lockstep_pure (.some ⟨rfl, h₁.lba, h₁.mirrorLba, fun _ => rfl, h₁.first,
              fun _ _ => rfl⟩)
    · exact hkeep

theorem parsePartitionMapsLoop_lockstep (vds : VolumeDescriptorSet) (fuel i map : Nat)
    (h : TableAlike n part part') :
    Proc.Lockstep MapsAlike (parsePartitionMapsLoop I vds fuel i map part n)
      (parsePartitionMapsLoop I vds fuel i map part' n) := by
  induction fuel generalizing i map part part' n with
  | zero => exact fun s => .inl ⟨_, rfl, rfl⟩
  | succ fuel ih =>
    have hend : Proc.Lockstep MapsAlike (pure (part, n) : Proc σ _) (pure (part', n)) :=
      Proc.lockstep_pure ⟨rfl, h⟩
    rw [parsePartitionMapsLoop, parsePartitionMapsLoop]
    split
    · exact hend
    · refine Proc.lockstep_bind _ fun len => ?_
      split
      · exact hend
      · split
        · exact hend
        · refine (parsePartitionMap_lockstep h vds i map len.toNat).bind fun r r' hr => ?_
          cases hr with
          | none => exact hend
          | @some r r' hr =>
            obtain ⟨part₁, n₁⟩ := r
            obtain ⟨part₁', n₁'⟩ := r'
            obtain ⟨rfl, h₁⟩ := hr
            exact ih (i + 1) (map + len.toNat) h₁

theorem udfParsePartitionMaps_lockstep (h : TableAlike 0 part part') (vds : VolumeDescriptorSet) :
    Proc.Lockstep (fun r r' => r'.1 = r.1 ∧ (r.1 = true → TableAlike 1 r.2 r'.2))
      (udfParsePartitionMaps I vds part) (udfParsePartitionMaps I vds part') := by
  refine (parsePartitionMapsLoop_lockstep vds 1024 0 0 h).bind fun r r' hr => ?_
  obtain ⟨part₁, n⟩ := r
  obtain ⟨part₁', n'⟩ := r'
  obtain ⟨rfl, h₁⟩ := hr
  refine Proc.lockstep_pure ⟨rfl, fun hok => ?_⟩
  have hn : n' ≠ 0 := by simpa using hok
  exact ⟨h₁.lba, h₁.mirrorLba, fun _ => h₁.count hn, fun _ => h₁.first hn, fun _ => h₁.number hn⟩

/-! ## Handles -/

/-- Two handles that differ in what no lookup reads. -/
structure HandleAlike (udf udf' : Udfread) : Prop where
  isOpen : udf'.isOpen = udf.isOpen
  dirs : udf'.dirs = udf.dirs
  table : TableAlike 1 udf.part udf'.part

variable {udf udf' : Udfread} {fuel : Nat}

theorem HandleAlike.partitionOf (h : HandleAlike udf udf') :
    UdfRead.partitionOf udf.part = UdfRead.partitionOf udf'.part :=
  h.table.partitionOf Nat.one_ne_zero

theorem HandleAlike.withDirs (h : HandleAlike udf udf') (dirs : List UdfDir) :
    HandleAlike { udf with dirs } { udf' with dirs } := ⟨h.isOpen, rfl, h.table⟩

/-- The result of a call, and the handle after it. -/
def ResultAlike {α : Type} (r r' : α × Udfread) : Prop := r'.1 = r.1 ∧ HandleAlike r.2 r'.2

theorem lockstep_result {α : Type} (a : α) (h : HandleAlike udf udf') :
    Proc.Lockstep ResultAlike (pure (a, udf) : Proc σ _) (pure (a, udf')) :=
  Proc.lockstep_pure ⟨rfl, h⟩

/-- A trap of both. -/
theorem lockstep_error {α β : Type} {R : α → β → Prop} (t : Trap) :
    Proc.Lockstep R (Proc.ofRes (.error t) : Proc σ α) (Proc.ofRes (.error t)) :=
  fun _ => .inl ⟨t, rfl, rfl⟩

/-! ## Lookups -/

theorem cacheSubdir_lockstep (h : HandleAlike udf udf') (dir index : Nat) :
    Proc.Lockstep ResultAlike (cacheSubdir I fuel udf dir index)
      (cacheSubdir I fuel udf' dir index) := by
  unfold cacheSubdir
  rw [h.dirs]
  cases udf.dirs[dir]? with
  | none => exact lockstep_error _
  | some d =>
    simp only
    cases d.entries[index]? with
    | none => exact lockstep_error _
    | some fid =>
      simp only
      split
      · exact lockstep_result none h
      · have hslots := h.withDirs (udf.dirs.set dir { d with subdirs := some d.slots })
        cases d.slots[index]? with
        | none => exact lockstep_error _
        | some slot =>
          cases slot with
          | some sub => exact lockstep_result (some sub) hslots
          | none =>
            simp only [udfReadDir_congr h.partitionOf]
            refine Proc.lockstep_bind _ fun r => ?_
            obtain ⟨result, entries⟩ := r
            simp only
            split
            · exact lockstep_result none hslots
            · exact lockstep_result _ (h.withDirs _)

theorem findFileLoop_lockstep (h : HandleAlike udf udf') (toks : List Bytes) (dir : Nat)
    (fid : Option UdfFileIdentifier) :
    Proc.Lockstep ResultAlike (findFileLoop I fuel toks udf dir fid)
      (findFileLoop I fuel toks udf' dir fid) := by
  induction toks generalizing udf udf' dir fid with
  | nil => exact lockstep_result _ h
  | cons token rest ih =>
    unfold findFileLoop
    rw [h.dirs]
    cases udf.dirs[dir]? with
    | none => exact lockstep_error _
    | some d =>
      simp only
      cases scanDir d.entries token with
      | none => exact lockstep_result _ h
      | some index =>
        simp only
        cases d.entries[index]? with
        | none => exact lockstep_error _
        | some fid =>
          simp only
          split
          · refine (cacheSubdir_lockstep h dir index).bind fun r r' hr => ?_
            obtain ⟨sub, udf₁⟩ := r
            obtain ⟨sub', udf₁'⟩ := r'
            obtain ⟨rfl, h₁⟩ := hr
            cases sub' with
            | none => exact lockstep_result _ h₁
            | some sub => exact ih h₁ sub (some fid)
          · split
            · exact lockstep_result _ h
            · exact lockstep_result _ h

theorem udfreadOpendir_lockstep (h : HandleAlike udf udf') (path : Bytes) :
    Proc.Lockstep ResultAlike (udfreadOpendir I fuel udf path)
      (udfreadOpendir I fuel udf' path) := by
  unfold udfreadOpendir
  rw [h.isOpen]
  split
  · exact lockstep_result none h
  · refine (findFileLoop_lockstep h (tokens path) 0 none).bind fun r r' hr => ?_
    obtain ⟨found, udf₁⟩ := r
    obtain ⟨found', udf₁'⟩ := r'
    obtain ⟨rfl, h₁⟩ := hr
    rcases found' with _ | ⟨_ | dir, fid⟩
    · exact lockstep_result none h₁
    · exact lockstep_result none h₁
    · exact lockstep_result _ h₁

theorem udfreadOpendirAt_lockstep (h : HandleAlike udf udf') (p : UdfDirHandle) (name : Bytes) :
    Proc.Lockstep ResultAlike (udfreadOpendirAt I fuel udf p name)
      (udfreadOpendirAt I fuel udf' p name) := by
  unfold udfreadOpendirAt
  rw [h.dirs]
  split
  · exact lockstep_result none h
  · cases udf.dirs[p.dir]? with
    | none => exact lockstep_error _
    | some d =>
      simp only
      cases scanDir d.entries name with
      | none => exact lockstep_result none h
      | some index =>
        refine (cacheSubdir_lockstep h p.dir index).bind fun r r' hr => ?_
        obtain ⟨sub, udf₁⟩ := r
        obtain ⟨sub', udf₁'⟩ := r'
        obtain ⟨rfl, h₁⟩ := hr
        cases sub' with
        | none => exact lockstep_result none h₁
        | some dir => exact lockstep_result _ h₁

/-- The identifier of an opened file; the file itself keeps the partition table. -/
def FileAlike (r r' : Option (UdfFileIdentifier × UdfFile) × Udfread) : Prop :=
  r'.1.map Prod.fst = r.1.map Prod.fst ∧ HandleAlike r.2 r'.2

theorem fileOpen_lockstep (h : HandleAlike udf udf') (fi : UdfFileIdentifier) :
    Proc.Lockstep FileAlike
      (do return ((← fileOpen I fuel udf fi).map (fi, ·), udf))
      (do return ((← fileOpen I fuel udf' fi).map (fi, ·), udf')) := by
  unfold fileOpen
  rw [udfReadFileEntry_congr h.partitionOf]
  split
  · exact Proc.lockstep_pure ⟨rfl, h⟩
  · rw [bind_assoc, bind_assoc]
    refine Proc.lockstep_bind _ fun r => ?_
    cases r with
    | none => exact Proc.lockstep_pure ⟨rfl, h⟩
    | some fe => exact Proc.lockstep_pure ⟨rfl, h⟩

theorem udfreadFileOpen_lockstep (h : HandleAlike udf udf') (path : Bytes) :
    Proc.Lockstep FileAlike (udfreadFileOpen I fuel udf path)
      (udfreadFileOpen I fuel udf' path) := by
  unfold udfreadFileOpen
  rw [h.isOpen]
  split
  · exact Proc.lockstep_pure ⟨rfl, h⟩
  · refine (findFileLoop_lockstep h (tokens path) 0 none).bind fun r r' hr => ?_
    obtain ⟨found, udf₁⟩ := r
    obtain ⟨found', udf₁'⟩ := r'
    obtain ⟨rfl, h₁⟩ := hr
    rcases found' with _ | ⟨dir, _ | fi⟩
    · exact Proc.lockstep_pure ⟨rfl, h₁⟩
    · exact Proc.lockstep_pure ⟨rfl, h₁⟩
    · exact fileOpen_lockstep h₁ fi

theorem udfreadFileOpenat_lockstep (h : HandleAlike udf udf') (p : UdfDirHandle) (name : Bytes) :
    Proc.Lockstep FileAlike (udfreadFileOpenat I fuel udf p name)
      (udfreadFileOpenat I fuel udf' p name) := by
  unfold udfreadFileOpenat
  rw [h.dirs]
  split
  · exact Proc.lockstep_pure ⟨rfl, h⟩
  · cases udf.dirs[p.dir]? with
    | none => exact lockstep_error _
    | some d =>
      simp only
      cases scanDir d.entries name with
      | none => exact Proc.lockstep_pure ⟨rfl, h⟩
      | some index =>
        simp only
        cases d.entries[index]? with
        | none => exact lockstep_error _
        | some fi => exact fileOpen_lockstep h fi

/-! ## Runs of lookups -/

theorem TableAlike.symm (h : TableAlike n part part') : TableAlike n part' part where
  lba := h.lba.symm
  mirrorLba := h.mirrorLba.symm
  count hn := (h.count hn).symm
  first hn := (h.first hn).symm
  number hn hcount := (h.number hn (by rwa [h.count hn] at hcount)).symm

theorem HandleAlike.symm (h : HandleAlike udf udf') : HandleAlike udf' udf :=
  ⟨h.isOpen.symm, h.dirs.symm, h.table.symm⟩

theorem HandleAlike.listing (h : HandleAlike udf udf') : udf'.listing = udf.listing := by
  funext p
  unfold Udfread.listing
  rw [h.dirs]

structure StateAlike (st st' : LookupState σ) : Prop where
  udf : HandleAlike st.udf st'.udf
  env : st'.env = st.env
  handles : st'.handles = st.handles

theorem lookupStep_alike {st st' st₁ : LookupState σ} {e : Lookup} (h : StateAlike st st')
    (hstep : LookupStep I st e st₁) :
    ∃ st₁', LookupStep I st' e st₁' ∧ StateAlike st₁ st₁' := by
  cases hstep with
  | @opendir fuel path r udf env hrun =>
    obtain ⟨⟨r', udf'⟩, hrun', hr, hudf⟩ := (udfreadOpendir_lockstep h.udf path).right hrun
    cases hr
    rw [← h.env] at hrun'
    rw [← hudf.listing]
    exact ⟨_, .opendir hrun', hudf, rfl, by rw [h.handles]⟩
  | @opendirAt fuel k p name r udf env hk hrun =>
    obtain ⟨⟨r', udf'⟩, hrun', hr, hudf⟩ := (udfreadOpendirAt_lockstep h.udf p name).right hrun
    cases hr
    rw [← h.env] at hrun'
    rw [← h.handles] at hk
    rw [← hudf.listing]
    exact ⟨_, .opendirAt hk hrun', hudf, rfl, by rw [h.handles]⟩
  | @fileOpen fuel path r udf env hrun =>
    obtain ⟨⟨r', udf'⟩, hrun', hr, hudf⟩ := (udfreadFileOpen_lockstep h.udf path).right hrun
    rw [← h.env] at hrun'
    rw [show r.map Prod.fst = r'.map Prod.fst from hr.symm]
    exact ⟨_, .fileOpen hrun', hudf, rfl, h.handles⟩
  | @fileOpenat fuel k p name r udf env hk hrun =>
    obtain ⟨⟨r', udf'⟩, hrun', hr, hudf⟩ := (udfreadFileOpenat_lockstep h.udf p name).right hrun
    rw [← h.env] at hrun'
    rw [← h.handles] at hk
    rw [show r.map Prod.fst = r'.map Prod.fst from hr.symm]
    exact ⟨_, .fileOpenat hk hrun', hudf, rfl, h.handles⟩

theorem lookups_alike (h : HandleAlike udf udf') (env : σ) {es : List Lookup}
    {st : LookupState σ} (hrun : Run (LookupStep I) { udf, env, handles := [] } es st) :
    ∃ st', Run (LookupStep I) { udf := udf', env, handles := [] } es st' := by
  have hstart : StateAlike { udf, env, handles := [] } { udf := udf', env, handles := [] } :=
    ⟨h, rfl, rfl⟩
  have hstep : ∀ (st st' : LookupState σ) e st₁, StateAlike st st' → LookupStep I st e st₁ →
      ∃ st₁', LookupStep I st' e st₁' ∧ StateAlike st₁ st₁' :=
    fun _ _ _ _ h hstep => lookupStep_alike h hstep
  obtain ⟨st', hrun', _⟩ := hrun.simulates hstep hstart
  exact ⟨st', hrun'⟩

/-! ## Opening in lockstep -/

theorem HandleAlike.rootEntries (h : HandleAlike udf udf') : udf'.rootEntries = udf.rootEntries := by
  unfold Udfread.rootEntries
  rw [h.dirs]

theorem HandleAlike.setRoot (h : HandleAlike udf udf') (entries : List UdfFileIdentifier) :
    HandleAlike (udf.setRootEntries entries) (udf'.setRootEntries entries) := by
  unfold Udfread.setRootEntries
  rw [h.dirs]
  cases udf.dirs with
  | nil => exact ⟨h.isOpen, rfl, h.table⟩
  | cons root rest => exact ⟨h.isOpen, rfl, h.table⟩

/-- The return values are the same, and after success the handles are alike. -/
def OpenAlike (r r' : Int × Udfread) : Prop := r'.1 = r.1 ∧ (r.1 = 0 → HandleAlike r.2 r'.2)

theorem lockstep_failed (udf udf' : Udfread) :
    Proc.Lockstep OpenAlike (pure (-1, udf) : Proc σ _) (pure (-1, udf')) :=
  Proc.lockstep_pure ⟨rfl, fun h => absurd h (show ¬ (-1 : Int) = 0 by decide)⟩

theorem openRoot_lockstep (h : HandleAlike udf udf') (fsdLocation : LongAd) :
    Proc.Lockstep OpenAlike (openRoot I fuel udf fsdLocation)
      (openRoot I fuel udf' fsdLocation) := by
  unfold openRoot
  rw [udfFindRootDir_congr h.partitionOf, udfReadDir_congr h.partitionOf, h.rootEntries]
  refine Proc.lockstep_bind _ fun r => ?_
  cases r with
  | none => exact lockstep_failed _ _
  | some rootIcb =>
    refine Proc.lockstep_bind _ fun r => ?_
    obtain ⟨result, entries⟩ := r
    simp only
    split
    · exact lockstep_failed _ _
    · have hset := h.setRoot entries
      exact Proc.lockstep_pure ⟨rfl, fun _ => ⟨rfl, hset.dirs, hset.table⟩⟩

/-- Closed handles with the same selection, directories and metadata locations. -/
theorem udfreadOpenInput_lockstep (hclosed : udf.isOpen = false) (hclosed' : udf'.isOpen = false)
    (hselect : udf'.partitionToOpen = udf.partitionToOpen) (hdirs : udf'.dirs = udf.dirs)
    (htable : TableAlike 0 udf.part udf'.part) :
    Proc.Lockstep OpenAlike (udfreadOpenInput I fuel udf) (udfreadOpenInput I fuel udf') := by
  unfold udfreadOpenInput
  rw [hclosed, hclosed', hselect]
  refine Proc.lockstep_bind _ fun probed => ?_
  split
  · exact lockstep_failed _ _
  · refine Proc.lockstep_bind _ fun r => ?_
    cases r with
    | none => exact lockstep_failed _ _
    | some vds =>
      refine Proc.lockstep_bind _ fun r => ?_
      cases r with
      | none => exact lockstep_failed _ _
      | some fsdLocation =>
        refine Proc.lockstep_bind _ fun volumeIdentifier => ?_
        refine (udfParsePartitionMaps_lockstep htable vds).bind fun r r' hr => ?_
        obtain ⟨ok, part⟩ := r
        obtain ⟨ok', part'⟩ := r'
        obtain ⟨rfl, htable'⟩ := hr
        cases ok' with
        | false => exact lockstep_failed _ _
        | true =>
          refine openRoot_lockstep ?_ fsdLocation
          exact ⟨rfl, hdirs, htable' rfl⟩

/-! ## Selections that no volume has -/

variable {partNumber : Int} {m m' : VdsMask} {vds vds' : VolumeDescriptorSet} {s s' : σ}

theorem takeDescriptor_unselected (hnumber : 65536 ≤ partNumber) (hm : m.part = false)
    {tag : TagIdentifier} {buf : Bytes}
    (h : takeDescriptor partNumber tag buf m vds = .ok (m', vds')) : m'.part = false := by
  unfold takeDescriptor at h
  split at h
  · obtain ⟨pvd, _, h⟩ := Res.bind_eq_ok.mp h
    cases h
    exact hm
  · obtain ⟨lvd, _, h⟩ := Res.bind_eq_ok.mp h
    cases h
    exact hm
  · split at h
    · obtain ⟨pd, _, h⟩ := Res.bind_eq_ok.mp h
      cases h
      have hlt := pd.number.toNat_lt
      simp only [hm, Bool.false_or, decide_eq_false_iff_not]
      omega
    · cases h
      exact hm
  · cases h
    exact hm

/-- What has been found when the scan of an extent ends. -/
def ScanEnd.mask : ScanEnd → VdsMask
  | .done m _ => m
  | .next _ m _ => m

theorem scanExtent_unselected (hnumber : 65536 ≤ partNumber) {n : Nat} {lba : UInt32}
    {r : ScanEnd} (hm : m.part = false)
    (h : scanExtent I partNumber n lba m vds s = .ok (r, s')) :
    r.mask.part = false := by
  induction n generalizing lba m vds s with
  | zero =>
    cases h
    exact hm
  | succ n ih =>
    obtain ⟨⟨tag, buf⟩, s₁, _, h⟩ := Proc.bind_eq_ok.mp h
    simp only at h
    split at h
    · obtain ⟨loc, s₂, _, h⟩ := Proc.bind_eq_ok.mp h
      cases h
      exact hm
    · split at h
      · cases h
        exact hm
      · obtain ⟨⟨m₁, vds₁⟩, s₂, htake, h⟩ := Proc.bind_eq_ok.mp h
        have hm₁ := takeDescriptor_unselected hnumber hm (Proc.ofRes_eq_ok.mp htake).1
        simp only at h
        split at h
        · cases h
          exact hm₁
        · exact ih hm₁ h

theorem searchVds_unselected (hnumber : 65536 ≤ partNumber) {fuel : Nat} {loc : ExtentAd}
    (hm : m.part = false)
    (h : searchVds I partNumber fuel loc m vds s = .ok ((m', vds'), s')) : m'.part = false := by
  induction fuel generalizing loc m vds s with
  | zero => cases h
  | succ fuel ih =>
    obtain ⟨r, s₁, hscan, h⟩ := Proc.bind_eq_ok.mp h
    have hr := scanExtent_unselected hnumber hm hscan
    cases r with
    | done m₁ vds₁ =>
      cases h
      exact hr
    | next loc' m₁ vds₁ => exact ih hr h

/-- A number that no partition has is never found. -/
theorem udfReadVds_unselected (hnumber : 65536 ≤ partNumber) {fuel : Nat}
    {r : Option VolumeDescriptorSet} (h : udfReadVds I fuel partNumber s = .ok (r, s')) :
    r = none := by
  obtain ⟨avdp, s₁, _, h⟩ := Proc.bind_eq_ok.mp h
  cases avdp with
  | none =>
    cases h
    rfl
  | some avdp =>
    obtain ⟨⟨m₁, vds₁⟩, s₂, hmain, h⟩ := Proc.bind_eq_ok.mp h
    have hm₁ := searchVds_unselected hnumber rfl hmain
    simp only [VdsMask.haveAll, hm₁, Bool.false_and, Bool.false_eq_true, if_false] at h
    obtain ⟨⟨m₂, vds₂⟩, s₃, hreserve, h⟩ := Proc.bind_eq_ok.mp h
    have hm₂ := searchVds_unselected hnumber hm₁ hreserve
    simp only [VdsMask.haveRequired, hm₂, Bool.false_and, Bool.false_eq_true, if_false] at h
    cases h
    rfl

theorem udfreadOpenInput_unselected (hclosed : udf.isOpen = false) (hclosed' : udf'.isOpen = false)
    (hselect : udf'.partitionToOpen = udf.partitionToOpen) (hnumber : 65536 ≤ udf.partitionToOpen) :
    Proc.Lockstep OpenAlike (udfreadOpenInput I fuel udf) (udfreadOpenInput I fuel udf') := by
  unfold udfreadOpenInput
  rw [hclosed, hclosed', hselect]
  refine Proc.lockstep_bind _ fun probed => ?_
  split
  · exact lockstep_failed _ _
  · refine Proc.lockstep_bind_of (fun _ _ _ h => udfReadVds_unselected hnumber h) fun r hr => ?_
    subst hr
    exact lockstep_failed _ _

end

end UdfRead
