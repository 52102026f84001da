import UdfRead.Udfls

/-!
# UdfRead.UdflsTermination

When the listing of a volume ends. `_lsdir_at` goes down into every sub-directory and keeps no record
of the directories it is in, so it ends exactly if no way down through the tree of the image is
endless (`lsdirAt_ends_iff`). Then it ends over every input that reads the image with faults, too.
-/

namespace UdfRead

open CModel

/-- The walk through a directory goes down into this sub-directory of the image. -/
def Below (image : Image) (part : UdfPartitions) (sub entries : List UdfFileIdentifier) : Prop :=
  ∃ fid ∈ entries, ¬ isDots fid.dName ∧ fid.dName ≠ [] ∧ fid.shown.2 = true ∧
    ∃ dir, firstNamed entries fid.dName = some dir ∧ dir.IsDir ∧ Lists image part dir.icb sub

/-- The number of slots of a directory is that of its entries. -/
def Udfread.SlotsFit (udf : Udfread) : Prop :=
  ∀ (i : Nat) (d : UdfDir), udf.dirs[i]? = some d → d.slots.length = d.entries.length

section

variable {σ : Type} {I : BlockInput σ} {image : Image} {part : UdfPartitions} {udf udf' : Udfread}
  {fuel fuel' turns turns' : Nat} {s s' : σ} {root entries : List UdfFileIdentifier}
  {dir : UdfDirHandle} {path name : Bytes} {lines : List Line} {icb : LongAd}

/-! ## Reading with faults ends -/

/-- Where the loop over the allocation extents ends on the image, it ends with faults. -/
theorem readExtents_ends (hI : I.Faults image)
    (hagree : ∀ loc, EntryReads image part icb loc → ExtentAgrees image part loc)
    {fe : FileEntry} (hfe : EntrySteps image part icb fe) {r : FileEntry × ChainEnd}
    (h : readExtents (faultFree image) part fuel fe () = .ok (r, ())) :
    Proc.Returns (readExtents I part fuel fe) fun _ => True := by
  induction fuel generalizing fe with
  | zero => cases h
  | succ fuel ih =>
    rw [readExtents] at h ⊢
    cases hd : fe.dropContinuation with
    | none => exact Proc.returns_pure trivial
    | some drop =>
      obtain ⟨loc, g⟩ := drop
      rw [hd] at h
      intro s
      obtain ⟨m, s₁, hread, -⟩ := readMetadata_returns I part loc s
      simp only
      rw [Proc.bind_of_ok hread]
      cases m with
      | none => exact ⟨_, _, rfl, trivial⟩
      | some b =>
        obtain ⟨tag, buf⟩ := b
        have hfree := readMetadata_faulty hI (hagree loc (.extent hfe hd)) hread
        simp only at h ⊢
        rw [Proc.bind_of_ok hfree] at h
        by_cases htag : tag = .allocationExtentDescriptor
        · subst htag
          simp only [ne_eq, not_true, if_false] at h ⊢
          obtain ⟨d, s₂, hdec, h⟩ := Proc.bind_eq_ok.mp h
          have hres := (Proc.ofRes_eq_ok.mp hdec).1
          rw [Proc.ofRes_bind hres]
          cases d with
          | none => exact ⟨_, _, rfl, trivial⟩
          | some fe₂ => exact ih (.next hfe hd hfree hres) h s₁
        · simp only [htag, ne_eq, not_false_iff, if_true]
          exact ⟨_, _, rfl, trivial⟩

theorem udfReadFileEntry_ends (hI : I.Faults image)
    (hagree : ∀ loc, EntryReads image part icb loc → ExtentAgrees image part loc)
    {r : Option FileEntry}
    (h : udfReadFileEntry (faultFree image) fuel part icb () = .ok (r, ())) :
    Proc.Returns (udfReadFileEntry I fuel part icb) fun r => ∀ fe, r = some fe → fe.Sized := by
  intro s
  obtain ⟨m, s₁, hblock, hsized⟩ := readEntryBlock_returns I part icb s
  cases m with
  | none =>
    have hchain : readFileEntryChain I fuel part icb s = .ok (none, s₁) := by
      rw [readFileEntryChain, Proc.bind_of_ok hblock]
      rfl
    exact ⟨none, s₁, Proc.bind_of_ok hchain, fun _ h => by cases h⟩
  | some fe =>
    have hfree := readEntryBlock_faulty hI (hagree icb .entry) hblock
    obtain ⟨c, _, hchain, -⟩ := Proc.bind_eq_ok.mp h
    rw [readFileEntryChain, Proc.bind_of_ok hfree] at hchain
    obtain ⟨x, _, hext, -⟩ := Proc.bind_eq_ok.mp hchain
    obtain ⟨⟨fe', e⟩, s₂, hrun, -⟩ := readExtents_ends hI hagree (.first hfree) hext s₁
    have hchain' : readFileEntryChain I fuel part icb s = .ok (some (fe', e), s₂) := by
      rw [readFileEntryChain, Proc.bind_of_ok hblock]
      exact Proc.bind_of_ok hrun
    refine ⟨some fe', s₂, Proc.bind_of_ok hchain', fun g hg => ?_⟩
    cases hg
    exact readExtents_sized (hsized fe rfl) hrun

/-- Where reading a directory of the image ends, it ends with faults. -/
theorem udfReadDir_ends (hI : I.Faults image)
    (hagree : ∀ loc, EntryReads image part icb loc → ExtentAgrees image part loc)
    (h : ReadEnds image part icb) :
    ∃ fuel, Proc.Returns (udfReadDir I fuel part icb []) fun _ => True := by
  obtain ⟨fuel, r, hrun⟩ := h
  obtain ⟨m, _, hentry, -⟩ := Proc.bind_eq_ok.mp hrun
  refine ⟨fuel, (udfReadFileEntry_ends hI hagree hentry).bind fun r hr => ?_⟩
  cases r with
  | none => exact Proc.returns_pure trivial
  | some fe =>
    refine readDirOf_returns I part (fun content hu => ?_) []
    have hsized := hr fe rfl
    unfold FileEntry.Sized at hsized
    rwa [hu] at hsized

/-! ## More fuel -/

theorem udfReadFileEntry_within (hle : fuel ≤ fuel') :
    Proc.Within (udfReadFileEntry I fuel part icb) (udfReadFileEntry I fuel' part icb) := by
  refine Proc.Within.bind (Proc.within_bind _ fun m => ?_) fun c => Proc.within_refl _
  cases m with
  | none => exact Proc.within_refl _
  | some fe =>
    refine Proc.Within.bind (fun s r h => ?_) fun e => Proc.within_refl _
    exact readExtents_mono hle h

theorem udfReadDir_within (hle : fuel ≤ fuel') :
    Proc.Within (udfReadDir I fuel part icb []) (udfReadDir I fuel' part icb []) :=
  (udfReadFileEntry_within hle).bind fun _ => Proc.within_refl _

theorem cacheSubdir_within (hle : fuel ≤ fuel') (udf : Udfread) (dir index : Nat) :
    Proc.Within (cacheSubdir I fuel udf dir index) (cacheSubdir I fuel' udf dir index) := by
  unfold cacheSubdir
  cases udf.dirs[dir]? with
  | none => exact Proc.within_refl _
  | some d =>
    simp only
    cases d.entries[index]? with
    | none => exact Proc.within_refl _
    | some fid =>
      simp only
      split
      · exact Proc.within_refl _
      · split
        · exact Proc.within_refl _
        · exact Proc.within_refl _
        · exact (udfReadDir_within hle).bind fun _ => Proc.within_refl _

theorem udfreadOpendirAt_within (hle : fuel ≤ fuel') (udf : Udfread) (dir : UdfDirHandle)
    (name : Bytes) :
    Proc.Within (udfreadOpendirAt I fuel udf dir name) (udfreadOpendirAt I fuel' udf dir name) := by
  unfold udfreadOpendirAt
  split
  · exact Proc.within_refl _
  · cases udf.dirs[dir.dir]? with
    | none => exact Proc.within_refl _
    | some d =>
      simp only
      cases scanDir d.entries name with
      | none => exact Proc.within_refl _
      | some index => exact (cacheSubdir_within hle udf _ index).bind fun _ => Proc.within_refl _

theorem fileOpen_within (hle : fuel ≤ fuel') (udf : Udfread) (fi : UdfFileIdentifier) :
    Proc.Within (fileOpen I fuel udf fi) (fileOpen I fuel' udf fi) := by
  unfold fileOpen
  split
  · exact Proc.within_refl _
  · exact (udfReadFileEntry_within hle).bind fun _ => Proc.within_refl _

theorem udfreadFileOpenat_within (hle : fuel ≤ fuel') (udf : Udfread) (dir : UdfDirHandle)
    (name : Bytes) :
    Proc.Within (udfreadFileOpenat I fuel udf dir name)
      (udfreadFileOpenat I fuel' udf dir name) := by
  unfold udfreadFileOpenat
  split
  · exact Proc.within_refl _
  · cases udf.dirs[dir.dir]? with
    | none => exact Proc.within_refl _
    | some d =>
      simp only
      cases scanDir d.entries name with
      | none => exact Proc.within_refl _
      | some index =>
        simp only
        cases d.entries[index]? with
        | none => exact Proc.within_refl _
        | some fi => exact (fileOpen_within hle udf fi).bind fun _ => Proc.within_refl _

theorem lsdirAt_within (hle : fuel ≤ fuel') (hturns : turns ≤ turns') (udf : Udfread)
    (dir : UdfDirHandle) (path : Bytes) :
    Proc.Within (lsdirAt I fuel turns udf dir path) (lsdirAt I fuel' turns' udf dir path) := by
  induction turns generalizing turns' udf dir path with
  | zero => exact Proc.within_error _ _
  | succ turns ih =>
    obtain ⟨turns', rfl⟩ := Nat.exists_eq_add_of_lt (Nat.lt_of_succ_le hturns)
    rw [show turns + turns' + 1 = (turns + turns') + 1 from rfl, lsdirAt, lsdirAt]
    have hrest : ∀ udf dir path, Proc.Within (lsdirAt I fuel turns udf dir path)
        (lsdirAt I fuel' (turns + turns') udf dir path) :=
      fun udf dir path => ih (Nat.le_add_right turns turns') udf dir path
    refine Proc.within_bind _ fun entry => ?_
    obtain ⟨_ | ⟨dName, isDir⟩, dir⟩ := entry
    · exact Proc.within_refl _
    · simp only
      split
      · exact hrest _ _ _
      · split
        · refine (udfreadOpendirAt_within hle udf dir _).bind fun child => ?_
          obtain ⟨_ | child, udf⟩ := child
          · exact (hrest _ _ _).bind fun _ => Proc.within_refl _
          · exact (hrest _ _ _).bind fun _ => (hrest _ _ _).bind fun _ => Proc.within_refl _
        · refine (udfreadFileOpenat_within hle udf dir _).bind fun file => ?_
          obtain ⟨_ | ⟨fid, fp⟩, udf⟩ := file
          · exact (hrest _ _ _).bind fun _ => Proc.within_refl _
          · exact (hrest _ _ _).bind fun _ => Proc.within_refl _

/-! ## Slots -/

theorem setSlots_fit {i : Nat} {d : UdfDir} {slots : List (Option Nat)} {new : List UdfDir}
    (h : udf.SlotsFit) (hslots : slots.length = d.entries.length)
    (hnew : ∀ x ∈ new, x.subdirs = none) : (udf.setSlots i d slots new).SlotsFit := by
  intro j x hx
  unfold Udfread.setSlots at hx
  simp only at hx
  have hmem := List.mem_of_getElem? hx
  rcases List.mem_append.mp hmem with hold | hadded
  · rcases List.mem_or_eq_of_mem_set hold with hkept | rfl
    · obtain ⟨k, hk⟩ := List.mem_iff_getElem?.mp hkept
      exact h k x hk
    · exact hslots
  · rw [UdfDir.slots, hnew x hadded, Option.getD_none, List.length_replicate]

theorem cacheSubdir_fit {i index : Nat} {r : Option Nat} (h : udf.SlotsFit)
    (hrun : cacheSubdir I fuel udf i index s = .ok ((r, udf'), s')) : udf'.SlotsFit := by
  obtain ⟨d, fid, hd, -, hcall⟩ := cacheSubdir_cases hrun
  have hlen := h i d hd
  cases hcall with
  | notDir => exact h
  | cached => exact setSlots_fit h hlen (by simp)
  | failed => exact setSlots_fit h hlen (by simp)
  | read => exact setSlots_fit h (by simpa using hlen) (by simp)

theorem udfreadOpendirAt_fit {r : Option UdfDirHandle} (h : udf.SlotsFit)
    (hrun : udfreadOpendirAt I fuel udf dir name s = .ok ((r, udf'), s')) : udf'.SlotsFit := by
  obtain ⟨-, rfl⟩ | ⟨d, index, sub, -, -, hcache, -⟩ := udfreadOpendirAt_cases hrun
  · exact h
  · exact cacheSubdir_fit h hcache

/-! ## Calls end -/

theorem scanDir_found {index : Nat} (h : scanDir entries name = some index) :
    ∃ fid, entries[index]? = some fid ∧ firstNamed entries name = some fid := by
  have hlt : index < entries.length := (List.findIdx?_eq_some_iff_getElem.mp h).1
  have hfid : entries[index]? = some entries[index] := List.getElem?_eq_getElem hlt
  exact ⟨_, hfid, scanDir_first h hfid⟩

theorem cacheSubdir_ends (hI : I.Faults image) (hfit : udf.SlotsFit) {i index : Nat} {d : UdfDir}
    {fid : UdfFileIdentifier} (hd : udf.dirs[i]? = some d) (hfid : d.entries[index]? = some fid)
    (hsteady : fid.IsDir → Steady image udf.part fid.icb) (s : σ) :
    ∃ fuel x, cacheSubdir I fuel udf i index s = .ok x := by
  by_cases hisdir : fid.IsDir
  · have hlt := (List.getElem?_eq_some_iff.mp hfid).1
    rw [← hfit i d hd] at hlt
    obtain ⟨fuel, hends⟩ := udfReadDir_ends hI (fun loc h => (hsteady hisdir).copies loc (.entry h))
      (hsteady hisdir).ends
    refine ⟨fuel, ?_⟩
    unfold cacheSubdir
    simp only [hd, hfid]
    rw [if_neg hisdir, List.getElem?_eq_getElem hlt]
    cases d.slots[index] with
    | some sub => exact ⟨_, rfl⟩
    | none =>
      obtain ⟨⟨result, listing⟩, s₁, hread, -⟩ := hends s
      simp only
      rw [Proc.bind_of_ok hread]
      simp only
      split
      · exact ⟨_, rfl⟩
      · exact ⟨_, rfl⟩
  · refine ⟨0, ?_⟩
    unfold cacheSubdir
    simp only [hd, hfid]
    rw [if_pos (not_not.mp hisdir)]
    exact ⟨_, rfl⟩

/-- The files and directories of the volume can be read in a finite number of steps. -/
structure ReadableVolume (image : Image) (part : UdfPartitions) (root : List UdfFileIdentifier) :
    Prop where
  steady : SteadyVolume image part root
  files : ∀ names fid, Selects image part root names fid → ¬ fid.IsDir →
    EntryEnds image part fid.icb

theorem udfreadOpendirAt_ends (hI : I.Faults image) (hvolume : ReadableVolume image part root)
    (h : Walks image part root udf dir entries) (hfit : udf.SlotsFit) (name : Bytes) (s : σ) :
    ∃ fuel x, udfreadOpendirAt I fuel udf dir name s = .ok x := by
  obtain ⟨d, hd, rfl⟩ := h.node
  obtain ⟨names, hpath⟩ := h.path
  unfold udfreadOpendirAt
  split
  · exact ⟨0, _, rfl⟩
  · simp only [hd]
    cases hscan : scanDir d.entries name with
    | none => exact ⟨0, _, rfl⟩
    | some index =>
      obtain ⟨fid, hfid, hfirst⟩ := scanDir_found hscan
      have hsteady : fid.IsDir → Steady image udf.part fid.icb := by
        intro hisdir
        rw [h.table]
        exact (hvolume.steady.dirs (names ++ [name])).last hpath hfirst hisdir
      obtain ⟨fuel, ⟨⟨sub, udf₁⟩, s₁⟩, hcache⟩ := cacheSubdir_ends hI hfit hd hfid hsteady s
      refine ⟨fuel, ?_⟩
      simp only
      rw [Proc.bind_of_ok hcache]
      cases sub with
      | none => exact ⟨_, rfl⟩
      | some sub => exact ⟨_, rfl⟩

theorem fileOpen_ends (hI : I.Faults image) {fid : UdfFileIdentifier}
    (hagree : ¬ fid.IsDir → ∀ loc, EntryReads image udf.part fid.icb loc →
      ExtentAgrees image udf.part loc)
    (hends : ¬ fid.IsDir → EntryEnds image udf.part fid.icb) (s : σ) :
    ∃ fuel x, fileOpen I fuel udf fid s = .ok x := by
  unfold fileOpen
  by_cases hisdir : fid.characteristic &&& charFlagDir ≠ 0
  · simp only [if_pos hisdir]
    exact ⟨0, _, rfl⟩
  · simp only [if_neg hisdir]
    obtain ⟨fuel, r, hchain, -⟩ := readFileEntryChain_returns (hends hisdir)
    have hrun : udfReadFileEntry (faultFree image) fuel udf.part fid.icb () =
        .ok (r.map Prod.fst, ()) := Proc.bind_of_ok hchain
    obtain ⟨fe, s₁, hread, -⟩ := udfReadFileEntry_ends hI (hagree hisdir) hrun s
    refine ⟨fuel, ?_⟩
    rw [Proc.bind_of_ok hread]
    cases fe with
    | none => exact ⟨_, rfl⟩
    | some fe => exact ⟨_, rfl⟩

theorem udfreadFileOpenat_ends (hI : I.Faults image) (hvolume : ReadableVolume image part root)
    (h : Walks image part root udf dir entries) (name : Bytes) (s : σ) :
    ∃ fuel x, udfreadFileOpenat I fuel udf dir name s = .ok x := by
  obtain ⟨d, hd, rfl⟩ := h.node
  obtain ⟨names, hpath⟩ := h.path
  unfold udfreadFileOpenat
  split
  · exact ⟨0, _, rfl⟩
  · simp only [hd]
    cases hscan : scanDir d.entries name with
    | none => exact ⟨0, _, rfl⟩
    | some index =>
      obtain ⟨fid, hfid, hfirst⟩ := scanDir_found hscan
      have hsel : Selects image part root (names ++ [name]) fid := .snoc hpath hfirst
      have hagree := hvolume.steady.files _ _ hsel
      have hends := hvolume.files _ _ hsel
      rw [← h.table] at hagree hends
      obtain ⟨fuel, ⟨file, s₁⟩, hopen⟩ := fileOpen_ends hI hagree hends s
      simp only [hfid]
      exact ⟨fuel, _, Proc.bind_of_ok hopen⟩

/-! ## The walk ends -/

/-- A turn, with all that follows, is a call of `_lsdir_at`. -/
theorem lsdirAt_of_turn {fid : UdfFileIdentifier} (hnode : udf.Node dir.dir entries)
    (hfid : entries[dir.currentFile]? = some fid)
    (h : WalkTurn I fuel turns udf dir.next path fid s lines udf' s') :
    lsdirAt I fuel (turns + 1) udf dir path s = .ok ((lines, udf'), s') := by
  have hname : cString fid.shown.1 = fid.dName := rfl
  rw [lsdirAt, Proc.ofRes_bind (udfreadReaddir_entry hnode hfid)]
  simp only [hname]
  cases h with
  | dots hdots hrest => rwa [if_pos hdots]
  | directory hdots hdir hopen hbelow hrest =>
    rw [if_neg hdots, if_pos hdir, Proc.bind_of_ok hopen]
    simp only
    rw [Proc.bind_of_ok hbelow]
    exact Proc.bind_of_ok hrest
  | openDirFailed hdots hdir hopen hrest =>
    rw [if_neg hdots, if_pos hdir, Proc.bind_of_ok hopen]
    exact Proc.bind_of_ok hrest
  | file hdots hdir hopen hrest =>
    rw [if_neg hdots, if_neg (by simp [hdir]), Proc.bind_of_ok hopen]
    exact Proc.bind_of_ok hrest
  | openFileFailed hdots hdir hopen hrest =>
    rw [if_neg hdots, if_neg (by simp [hdir]), Proc.bind_of_ok hopen]
    exact Proc.bind_of_ok hrest

/-- The walk comes to an end, and the slots of the cache fit then. -/
def WalkEnds (I : BlockInput σ) (udf : Udfread) (dir : UdfDirHandle) (path : Bytes) (s : σ) : Prop :=
  ∃ fuel turns lines udf' s', lsdirAt I fuel turns udf dir path s = .ok ((lines, udf'), s') ∧
    udf'.SlotsFit

/-- What is left of a directory is gone through, if the walk ends in all sub-directories below. -/
theorem walkEnds_rest (hI : I.Faults image) (hvolume : ReadableVolume image part root)
    (hsub : ∀ sub, Below image part sub entries → ∀ udf dir path (s : σ),
      Walks image part root udf dir sub → udf.SlotsFit → dir.currentFile = 0 →
      WalkEnds I udf dir path s)
    (n : Nat) (udf : Udfread) (dir : UdfDirHandle) (path : Bytes) (s : σ)
    (hn : entries.length - dir.currentFile ≤ n) (h : Walks image part root udf dir entries)
    (hfit : udf.SlotsFit) : WalkEnds I udf dir path s := by
  induction n generalizing udf dir s with
  | zero =>
    have hend : entries[dir.currentFile]? = none := List.getElem?_eq_none_iff.mpr (by omega)
    refine ⟨0, 1, [], udf, s, ?_, hfit⟩
    rw [lsdirAt, Proc.ofRes_bind (udfreadReaddir_end h.node hend)]
    rfl
  | succ n ih =>
    cases hfid : entries[dir.currentFile]? with
    | none =>
      refine ⟨0, 1, [], udf, s, ?_, hfit⟩
      rw [lsdirAt, Proc.ofRes_bind (udfreadReaddir_end h.node hfid)]
      rfl
    | some fid =>
      have hmem : fid ∈ entries := List.mem_of_getElem? hfid
      have hnext : entries.length - dir.next.currentFile ≤ n := by
        have hlt := (List.getElem?_eq_some_iff.mp hfid).1
        show entries.length - (dir.currentFile + 1) ≤ n
        omega
      by_cases hdots : isDots fid.dName
      · obtain ⟨fuel, turns, lines, udf', s', hrest, hfit'⟩ := ih udf dir.next s hnext h.next hfit
        exact ⟨fuel, turns + 1, lines, udf', s', lsdirAt_of_turn h.node hfid (.dots hdots hrest),
          hfit'⟩
      · cases hdir : fid.shown.2 with
        | true =>
          obtain ⟨fuel₁, ⟨⟨child, udf₁⟩, s₁⟩, hopen⟩ :=
            udfreadOpendirAt_ends hI hvolume h.next hfit fid.dName s
          have hfit₁ := udfreadOpendirAt_fit hfit hopen
          obtain ⟨h₁, -, hchild⟩ := h.next.child hI hvolume.steady hopen
          cases child with
          | none =>
            obtain ⟨fuel₂, turns, lines, udf', s', hrest, hfit'⟩ :=
              ih udf₁ dir.next s₁ hnext h₁ hfit₁
            have hopen' := udfreadOpendirAt_within (le_max_left fuel₁ fuel₂) _ _ _ _ _ hopen
            have hrest' := lsdirAt_within (le_max_right fuel₁ fuel₂) (le_refl _) _ _ _ _ _ hrest
            exact ⟨max fuel₁ fuel₂, turns + 1, _, udf', s', lsdirAt_of_turn h.node hfid
              (.openDirFailed hdots hdir hopen' hrest'), hfit'⟩
          | some child =>
            obtain ⟨hstart, dirFid, sub, hfirst, hisdir, hlist, hwalks⟩ := hchild child rfl
            have hname : fid.dName ≠ [] := by
              intro hempty
              rw [hempty] at hopen
              cases hopen
            have hbelow : Below image part sub entries :=
              ⟨fid, hmem, hdots, hname, hdir, dirFid, hfirst, hisdir, hlist⟩
            obtain ⟨fuel₂, turns₂, below, udf₂, s₂, hrunBelow, hfit₂⟩ := hsub sub hbelow udf₁ child
              (path ++ fid.dName ++ [0x2f]) s₁ hwalks hfit₁ hstart
            obtain ⟨-, hinv, hgrows⟩ := lsdirAt_prints hI hvolume.steady hwalks hrunBelow
            obtain ⟨fuel₃, turns₃, lines, udf', s', hrest, hfit'⟩ :=
              ih udf₂ dir.next s₂ hnext (h₁.after hinv hgrows) hfit₂
            obtain ⟨fuel, hfuel₁, hfuel₂, hfuel₃⟩ :
                ∃ fuel, fuel₁ ≤ fuel ∧ fuel₂ ≤ fuel ∧ fuel₃ ≤ fuel :=
              ⟨fuel₁ + fuel₂ + fuel₃, by omega, by omega, by omega⟩
            have hopen' := udfreadOpendirAt_within hfuel₁ _ _ _ _ _ hopen
            have hbelow' := lsdirAt_within hfuel₂ (le_max_left turns₂ turns₃) _ _ _ _ _ hrunBelow
            have hrest' := lsdirAt_within hfuel₃ (le_max_right turns₂ turns₃) _ _ _ _ _ hrest
            exact ⟨fuel, max turns₂ turns₃ + 1, _, udf', s', lsdirAt_of_turn h.node hfid
              (.directory hdots hdir hopen' hbelow' hrest'), hfit'⟩
        | false =>
          obtain ⟨fuel₁, ⟨⟨file, udf₁⟩, s₁⟩, hopen⟩ :=
            udfreadFileOpenat_ends hI hvolume h.next fid.dName s
          obtain ⟨rfl, -⟩ := h.next.file hI hvolume.steady hopen
          obtain ⟨fuel₂, turns, lines, udf', s', hrest, hfit'⟩ :=
            ih _ dir.next s₁ hnext h.next hfit
          have hopen' := udfreadFileOpenat_within (le_max_left fuel₁ fuel₂) _ _ _ _ _ hopen
          have hrest' := lsdirAt_within (le_max_right fuel₁ fuel₂) (le_refl _) _ _ _ _ _ hrest
          cases file with
          | none =>
            exact ⟨max fuel₁ fuel₂, turns + 1, _, udf', s', lsdirAt_of_turn h.node hfid
              (.openFileFailed hdots hdir hopen' hrest'), hfit'⟩
          | some x =>
            obtain ⟨file, fp⟩ := x
            exact ⟨max fuel₁ fuel₂, turns + 1, _, udf', s', lsdirAt_of_turn h.node hfid
              (.file hdots hdir hopen' hrest'), hfit'⟩

/-- Below a directory that no endless way leads down from, the walk ends. -/
theorem walkEnds_of_acc (hI : I.Faults image) (hvolume : ReadableVolume image part root)
    (hacc : Acc (Below image part) entries) (h : Walks image part root udf dir entries)
    (hfit : udf.SlotsFit) (path : Bytes) (s : σ) : WalkEnds I udf dir path s := by
  induction hacc generalizing udf dir path s with
  | intro entries _ ih =>
    refine walkEnds_rest hI hvolume ?_ entries.length _ _ path s (Nat.sub_le _ _) h hfit
    intro sub hsub _ _ path s hwalks hfits _
    exact ih sub hsub hwalks hfits path s

/-! ## Where it does not end -/

theorem cString_dName (fid : UdfFileIdentifier) : cString fid.dName = fid.dName := by
  unfold UdfFileIdentifier.dName cString
  exact List.takeWhile_idem

theorem Lists.unique {sub sub' : List UdfFileIdentifier} (h : Lists image part icb sub)
    (h' : Lists image part icb sub') : sub = sub' := by
  obtain ⟨fuel, r, hrun, -⟩ := h
  exact (lists_unique h' hrun).2

/-- On the image itself, a sub-directory that has a listing can be opened. -/
theorem udfreadOpendirAt_lists {udf : Udfread} {dir : UdfDirHandle}
    {r : Option UdfDirHandle} {fid : UdfFileIdentifier} {sub : List UdfFileIdentifier}
    (hnode : udf.Node dir.dir entries) (hname : cString name ≠ [])
    (hfirst : firstNamed entries name = some fid) (hisdir : fid.IsDir)
    (hlist : Lists image udf.part fid.icb sub)
    (hrun : udfreadOpendirAt (faultFree image) fuel udf dir name () = .ok ((r, udf'), ())) :
    ∃ child, r = some child := by
  obtain ⟨d, hd, rfl⟩ := hnode
  unfold udfreadOpendirAt at hrun
  rw [if_neg hname] at hrun
  simp only [hd] at hrun
  cases hscan : scanDir d.entries name with
  | none =>
    rw [firstNamed, List.find?_eq_bind_findIdx?_getElem?] at hfirst
    unfold scanDir at hscan
    rw [hscan] at hfirst
    cases hfirst
  | some index =>
    obtain ⟨fid', hfid, hfirst'⟩ := scanDir_found hscan
    obtain rfl : fid = fid' := Option.some.inj (hfirst.symm.trans hfirst')
    simp only [hscan] at hrun
    obtain ⟨⟨k, udf₁⟩, _, hcache, hrun⟩ := Proc.bind_eq_ok.mp hrun
    obtain ⟨d', fid', hd', hfid', hcall⟩ := cacheSubdir_cases hcache
    obtain rfl : d = d' := Option.some.inj (hd.symm.trans hd')
    obtain rfl : fid = fid' := Option.some.inj (hfid.symm.trans hfid')
    cases hcall with
    | notDir hdir => exact absurd hisdir hdir
    | cached hdir hslot =>
      cases hrun
      exact ⟨_, rfl⟩
    | failed hdir hslot hread hfail =>
      obtain ⟨hr, -⟩ := lists_unique hlist hread
      omega
    | read hdir hslot hread hok =>
      cases hrun
      exact ⟨_, rfl⟩

/-- A walk over the image that comes to an end has gone down into trees without an endless way. -/
theorem acc_of_walk (hvolume : SteadyVolume image part root) {udf udf' : Udfread}
    {dir : UdfDirHandle} (h : Walks image part root udf dir entries)
    (hrun : lsdirAt (faultFree image) fuel turns udf dir path () = .ok ((lines, udf'), ())) :
    ∀ fid ∈ entries.drop dir.currentFile, ¬ isDots fid.dName → fid.dName ≠ [] →
      fid.shown.2 = true → ∀ fid' sub, firstNamed entries fid.dName = some fid' → fid'.IsDir →
      Lists image part fid'.icb sub → Acc (Below image part) sub := by
  have hI : (faultFree image).Faults image := faults_of_part fun _ _ h => h
  induction turns generalizing udf dir entries path lines udf' with
  | zero => cases hrun
  | succ turns ih =>
    obtain ⟨hend, -⟩ | ⟨first, hfirst, hturn⟩ := lsdirAt_cases h.node hrun
    · rw [List.drop_eq_nil_of_le (List.getElem?_eq_none_iff.mp hend)]
      simp
    · rw [drop_next hfirst]
      intro fid hmem hdots hname hdir fid' sub hfid' hisdir hlist
      cases hturn with
      | dots hdots₁ hrest =>
        rcases List.mem_cons.mp hmem with rfl | hmem
        · exact absurd hdots₁ hdots
        · exact ih h.next hrest fid hmem hdots hname hdir fid' sub hfid' hisdir hlist
      | directory hdots₁ hdir₁ hopen hbelow hrest =>
        obtain ⟨h₁, -, hchild⟩ := h.next.child hI hvolume hopen
        obtain ⟨hstart, dirFid, sub', hfirst', hisdir', hlist', hwalks⟩ := hchild _ rfl
        rcases List.mem_cons.mp hmem with rfl | hmem
        · obtain rfl : dirFid = fid' := Option.some.inj (hfirst'.symm.trans hfid')
          obtain rfl : sub' = sub := hlist'.unique hlist
          refine Acc.intro _ ?_
          rintro below ⟨fid₂, hmem₂, hdots₂, hname₂, hdir₂, fid₃, hfirst₃, hisdir₃, hlist₃⟩
          refine ih hwalks hbelow fid₂ ?_ hdots₂ hname₂ hdir₂ fid₃ below hfirst₃ hisdir₃ hlist₃
          rwa [hstart, List.drop_zero]
        · obtain ⟨-, hinv, hgrows⟩ := lsdirAt_prints hI hvolume hwalks hbelow
          exact ih (h₁.after hinv hgrows) hrest fid hmem hdots hname hdir fid' sub hfid' hisdir hlist
      | openDirFailed hdots₁ hdir₁ hopen hrest =>
        obtain ⟨h₁, -, -⟩ := h.next.child hI hvolume hopen
        rcases List.mem_cons.mp hmem with rfl | hmem
        · have hlist' := hlist
          rw [← h.table] at hlist'
          obtain ⟨child, hchild⟩ := udfreadOpendirAt_lists h.next.node
            (by rwa [cString_dName]) hfid' hisdir hlist' hopen
          cases hchild
        · exact ih h₁ hrest fid hmem hdots hname hdir fid' sub hfid' hisdir hlist
      | file hdots₁ hdir₁ hopen hrest =>
        obtain ⟨rfl, -⟩ := h.next.file hI hvolume hopen
        rcases List.mem_cons.mp hmem with rfl | hmem
        · rw [hdir] at hdir₁
          cases hdir₁
        · exact ih h.next hrest fid hmem hdots hname hdir fid' sub hfid' hisdir hlist
      | openFileFailed hdots₁ hdir₁ hopen hrest =>
        obtain ⟨rfl, -⟩ := h.next.file hI hvolume hopen
        rcases List.mem_cons.mp hmem with rfl | hmem
        · rw [hdir] at hdir₁
          cases hdir₁
        · exact ih h.next hrest fid hmem hdots hname hdir fid' sub hfid' hisdir hlist

/-- The walk of `udfls` through an opened volume ends on the image exactly if no way down from the
root directory is endless; then it ends over every input that reads the image with faults. -/
theorem lsdirAt_ends_iff {udf₀ udf : Udfread} (hclosed : udf₀.Closed)
    (hopen : udfreadOpenInput (faultFree image) fuel udf₀ () = .ok ((0, udf), ()))
    (hvolume : ReadableVolume image udf.part udf.rootEntries) :
    ((∃ fuel turns r, lsdirAt (faultFree image) fuel turns udf { dir := 0, currentFile := 0 } [0x2f]
      () = .ok r) ↔ Acc (Below image udf.part) udf.rootEntries) ∧
    (Acc (Below image udf.part) udf.rootEntries → ∀ (σ : Type) (I : BlockInput σ) (s : σ),
      I.Faults image → ∃ fuel turns r,
        lsdirAt I fuel turns udf { dir := 0, currentFile := 0 } [0x2f] s = .ok r) := by
  obtain ⟨entries, hdirs⟩ := udfreadOpenInput_dirs hclosed hopen
  have hopened := refines_opened image ⟨entries, hdirs⟩ ()
  have hstart : Walks image udf.part udf.rootEntries udf { dir := 0, currentFile := 0 }
      udf.rootEntries :=
    ⟨rfl, hopened.cache, hopened.cache.root, [], .nil _⟩
  have hfit : udf.SlotsFit := by
    intro i d hd
    rw [hdirs, List.getElem?_singleton] at hd
    split at hd
    · cases hd
      simp [UdfDir.slots]
    · cases hd
  have hends : Acc (Below image udf.part) udf.rootEntries → ∀ (σ : Type) (I : BlockInput σ) (s : σ),
      I.Faults image → ∃ fuel turns r,
        lsdirAt I fuel turns udf { dir := 0, currentFile := 0 } [0x2f] s = .ok r := by
    intro hacc σ I s hI
    obtain ⟨fuel, turns, lines, udf', s', hrun, -⟩ :=
      walkEnds_of_acc hI hvolume hacc hstart hfit [0x2f] s
    exact ⟨fuel, turns, _, hrun⟩
  refine ⟨⟨?_, fun hacc => hends hacc Unit _ () (faults_of_part fun _ _ h => h)⟩, hends⟩
  rintro ⟨fuel, turns, ⟨⟨lines, udf'⟩, _⟩, hrun⟩
  refine Acc.intro _ ?_
  rintro sub ⟨fid, hmem, hdots, hname, hdir, fid', hfirst, hisdir, hlist⟩
  exact acc_of_walk hvolume.steady hstart hrun fid hmem hdots hname hdir fid' sub hfirst hisdir hlist

end

theorem oneFileMedia_readable :
    ReadableVolume (some ∘ oneFileMedia) oneFileOpened.part oneFileOpened.rootEntries := by
  refine ⟨oneFileMedia_steady, fun names fid hsel hisdir => ?_⟩
  rw [oneFile_selects hsel]
  have hchain : readFileEntryChain (faultFree (some ∘ oneFileMedia)) 3 oneFileOpened.part aFile.icb
      () = .ok (some (oneFileEntry, .complete), ()) := by
    decide +kernel
  exact entryEnds_of_returns hchain

theorem lsdirAt_ends_iff_oneFile : ∃ fuel turns r, lsdirAt (faultFree (some ∘ oneFileMedia)) fuel
    turns oneFileOpened { dir := 0, currentFile := 0 } [0x2f] () = .ok r := by
  refine (lsdirAt_ends_iff (closed_init 7) oneFileMedia_opened oneFileMedia_readable).1.mpr ?_
  refine Acc.intro _ ?_
  rintro sub ⟨fid, hmem, -, -, hdir, -⟩
  have hfid : fid = aFile := by simpa [oneFileOpened, Udfread.rootEntries] using hmem
  subst hfid
  cases hdir

end UdfRead
