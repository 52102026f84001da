import UdfRead.Faults
import UdfRead.FileSetSearch

/-!
# UdfRead.MirrorCopies

Damage to a partition with a mirror. A read of its logical blocks gives the same as without damage
as long as one copy of each block is left (`readMetadata_kept`), so the functions that read metadata
do, as far as they read logical blocks of the partition or blocks that are not lost
(`oneCopy_enough`).
-/

namespace UdfRead

open CModel

/-! ## One copy of each block -/

/-- The two copies of the logical blocks `logical` of the partition are equal, one copy of each can
be read, and nothing else is lost. -/
structure OneCopyLeft (image : Image) (p : Partition) (logical : UInt32 → Prop)
    (lost : UInt32 → Bool) : Prop where
  mirror : p.mirrorLba ≠ 0
  equal : ∀ x, logical x → ∃ a b, image (p.lba + x) = some a ∧ image (p.mirrorLba + x) = some b ∧
    blockBytes a = blockBytes b
  left : ∀ x, logical x → lost (p.lba + x) = false ∨ lost (p.mirrorLba + x) = false
  others : ∀ lba, lost lba = true → ∃ x, logical x ∧ IsCopy p x lba

/-- Logical block `x` of partition `q` is one of those of `p`, or neither copy of it is lost. -/
def Kept (p : Partition) (logical : UInt32 → Prop) (lost : UInt32 → Bool) (q : Partition)
    (x : UInt32) : Prop :=
  q = p ∧ logical x ∨ ∀ lba, IsCopy q x lba → lost lba = false

/-- All blocks of the extent. -/
def KeptExtent (part : UdfPartitions) (p : Partition) (logical : UInt32 → Prop)
    (lost : UInt32 → Bool) (loc : LongAd) : Prop :=
  ∀ q, partitionOf part loc.partition = some q →
    ∀ k, k < (loc.length.toNat + 2047) / 2048 → Kept p logical lost q (loc.lba + UInt32.ofNat k)

section

variable {image : Image} {part : UdfPartitions} {p q : Partition} {logical : UInt32 → Prop}
  {lost : UInt32 → Bool} {loc icb : LongAd}

/-! ## Metadata -/

/-- The first block is the same, or not valid in either image. -/
theorem readFirst_kept (h : OneCopyLeft image p logical lost)
    (hkept : Kept p logical lost q loc.lba) :
    ∃ r r', readFirst (faultFree image) q loc () = .ok (r, ()) ∧
      readFirst (faultFree (damaged image lost)) q loc () = .ok (r', ()) ∧
      (r' = r ∨ r.1 = .invalid ∧ r'.1 = .invalid) := by
  refine ⟨_, _, readFirst_faultFree q loc, readFirst_faultFree q loc, ?_⟩
  rcases hkept with ⟨rfl, hx⟩ | hkept
  · obtain ⟨a, b, ha, hb, hab⟩ := h.equal _ hx
    have hsame := imageTag_congr ha hb hab
    have hdamaged := imageTag_damaged image lost (q.lba + loc.lba)
    have hmirror := imageTag_damaged image lost (q.mirrorLba + loc.lba)
    rw [hsame] at hdamaged ⊢
    rw [ite_self, hdamaged, hmirror]
    by_cases hlost : lost (q.lba + loc.lba) = true
    · have hleft := (h.left _ hx).resolve_left (by simp [hlost])
      simp [hlost, hleft, h.mirror]
    · simp only [hlost, Bool.false_eq_true, if_false, h.mirror, ne_eq, not_false_iff, and_true]
      by_cases htag : (imageTag image (q.mirrorLba + loc.lba)).1 = .invalid
      · refine .inr ⟨htag, ?_⟩
        rw [if_pos htag]
        split
        · rfl
        · exact htag
      · exact .inl (if_neg htag)
  · have hprimary : lost (q.lba + loc.lba) = false := hkept _ (.inl rfl)
    rw [imageTag_damaged, hprimary]
    simp only [Bool.false_eq_true, if_false]
    split
    · rename_i hcond
      rw [imageTag_damaged, hkept _ (.inr ⟨hcond.2, rfl⟩)]
      exact .inl rfl
    · exact .inl rfl

theorem readFollowing_kept (h : OneCopyLeft image p logical lost) {i : UInt32}
    (hkept : Kept p logical lost q (loc.lba + i)) :
    readFollowing (faultFree (damaged image lost)) q loc i () =
      readFollowing (faultFree image) q loc i () := by
  rw [readFollowing_faultFree, readFollowing_faultFree, UInt32.add_assoc, UInt32.add_assoc]
  rcases hkept with ⟨rfl, hx⟩ | hkept
  · obtain ⟨a, b, ha, hb, hab⟩ := h.equal _ hx
    by_cases hlost : lost (q.lba + (loc.lba + i)) = true
    · have hleft := (h.left _ hx).resolve_left (by simp [hlost])
      simp only [damaged_lost hlost, damaged_kept hleft, ha, hb, if_pos h.mirror, Option.map_some,
        hab]
    · rw [damaged_kept (by simpa using hlost), ha]
  · have hprimary : lost (q.lba + (loc.lba + i)) = false := hkept _ (.inl rfl)
    rw [damaged_kept hprimary]
    split
    · rfl
    · split
      · rename_i hmirror
        rw [damaged_kept (hkept _ (.inr ⟨hmirror, rfl⟩))]
      · rfl

theorem readFollowingLoop_kept (h : OneCopyLeft image p logical lost) (loc : LongAd) (n : Nat)
    (i : UInt32) (buf : Bytes)
    (hkept : ∀ k < n, Kept p logical lost q (loc.lba + (i + UInt32.ofNat k))) :
    readFollowingLoop (faultFree (damaged image lost)) q loc n i buf () =
      readFollowingLoop (faultFree image) q loc n i buf () := by
  induction n generalizing i buf with
  | zero => rfl
  | succ n ih =>
    have hi := hkept 0 (Nat.succ_pos n)
    rw [add_ofNat_zero] at hi
    have hread := readFollowing_kept h hi
    obtain ⟨r, s, hrun, -⟩ := readFollowing_returns (faultFree image) q loc i ()
    rw [readFollowingLoop, readFollowingLoop, Proc.bind_of_ok hrun, Proc.bind_of_ok (hread.trans hrun)]
    cases r with
    | none => rfl
    | some block =>
      refine ih (i + 1) (buf ++ block) fun k hk => ?_
      rw [add_one_ofNat]
      exact hkept (k + 1) (Nat.succ_lt_succ hk)

/-- Reading an extent of kept blocks. -/
theorem readMetadataBlocks_kept (h : OneCopyLeft image p logical lost)
    (hkept : KeptExtent part p logical lost loc) (hlen : 1 ≤ loc.length.toNat) :
    readMetadataBlocks (faultFree (damaged image lost)) part loc () =
      readMetadataBlocks (faultFree image) part loc () := by
  unfold readMetadataBlocks
  cases hq : partitionOf part loc.partition with
  | none => rfl
  | some q =>
    have hblocks := hkept q hq
    have hfirst := hblocks 0 (by omega)
    rw [add_ofNat_zero] at hfirst
    obtain ⟨r, r', hrun, hrun', hsame⟩ := readFirst_kept h hfirst
    simp only
    rw [Proc.bind_of_ok hrun, Proc.bind_of_ok hrun']
    rcases hsame with rfl | ⟨hinvalid, hinvalid'⟩
    · split
      · rfl
      · have hloop := readFollowingLoop_kept h loc ((loc.length - 1) / 2048).toNat 1 r'.2
          fun k hk => by
            rw [following_blocks hlen] at hk
            have hk' := hblocks (k + 1) (by omega)
            rwa [UInt32.ofNat_add, UInt32.add_comm (UInt32.ofNat k)] at hk'
        obtain ⟨d, s, hd, -⟩ := readFollowingLoop_returns (faultFree image) q loc
          ((loc.length - 1) / 2048).toNat 1 r'.2 ()
        rw [Proc.bind_of_ok hd, Proc.bind_of_ok (hloop.trans hd)]
    · rw [if_pos hinvalid, if_pos hinvalid']

theorem readMetadata_kept (h : OneCopyLeft image p logical lost)
    (hkept : KeptExtent part p logical lost loc) :
    readMetadata (faultFree (damaged image lost)) part loc () =
      readMetadata (faultFree image) part loc () := by
  unfold readMetadata
  split
  · rfl
  · exact readMetadataBlocks_kept h hkept (length_pos_of_blocks ‹_›)

/-! ## File entries and directories -/

theorem readEntryBlock_kept (h : OneCopyLeft image p logical lost)
    (hkept : KeptExtent part p logical lost icb) :
    readEntryBlock (faultFree (damaged image lost)) part icb () =
      readEntryBlock (faultFree image) part icb () := by
  obtain ⟨r, s, hread, -⟩ := readMetadata_returns (faultFree image) part icb ()
  rw [readEntryBlock, readEntryBlock, Proc.bind_of_ok hread,
    Proc.bind_of_ok ((readMetadata_kept h hkept).trans hread)]

/-- The loop over the allocation extents, from a file entry that the run goes through. -/
theorem readExtents_kept (h : OneCopyLeft image p logical lost)
    (hkept : ∀ loc, EntryReads image part icb loc → KeptExtent part p logical lost loc)
    (fuel : Nat) {fe : FileEntry} (hfe : EntrySteps image part icb fe) :
    readExtents (faultFree (damaged image lost)) part fuel fe () =
      readExtents (faultFree image) part fuel fe () := by
  induction fuel generalizing fe with
  | zero => rfl
  | succ fuel ih =>
    rw [readExtents, readExtents]
    cases hd : fe.dropContinuation with
    | none => rfl
    | some r =>
      obtain ⟨loc, fe'⟩ := r
      obtain ⟨m, s, hread, -⟩ := readMetadata_returns (faultFree image) part loc ()
      have hsame := readMetadata_kept h (hkept loc (.extent hfe hd))
      simp only
      rw [Proc.bind_of_ok hread, Proc.bind_of_ok (hsame.trans hread)]
      rcases m with _ | ⟨tag, buf⟩
      · rfl
      · simp only
        split
        · rfl
        · rename_i htag
          cases hdec : decodeAllocationExtent fe' buf loc.length.toNat loc.partition with
          | error t =>
            have hstep : (Proc.ofRes (.error t) : Proc Unit (Option FileEntry)) () = .error t := rfl
            rw [Proc.bind_of_error hstep, Proc.bind_of_error hstep]
          | ok d =>
            have hstep : (Proc.ofRes (.ok d) : Proc Unit (Option FileEntry)) () = .ok (d, ()) := rfl
            rw [Proc.bind_of_ok hstep, Proc.bind_of_ok hstep]
            cases d with
            | none => rfl
            | some fe'' =>
              have htag' : tag = .allocationExtentDescriptor := not_not.mp htag
              rw [htag'] at hread
              exact ih (.next hfe hd hread hdec)

theorem udfReadFileEntry_kept (h : OneCopyLeft image p logical lost)
    (hkept : ∀ loc, EntryReads image part icb loc → KeptExtent part p logical lost loc)
    (fuel : Nat) :
    udfReadFileEntry (faultFree (damaged image lost)) fuel part icb () =
      udfReadFileEntry (faultFree image) fuel part icb () := by
  have hentry := readEntryBlock_kept h (hkept icb .entry)
  have hchain : readFileEntryChain (faultFree (damaged image lost)) fuel part icb () =
      readFileEntryChain (faultFree image) fuel part icb () := by
    unfold readFileEntryChain
    cases hrun : readEntryBlock (faultFree image) part icb () with
    | error t => rw [Proc.bind_of_error hrun, Proc.bind_of_error (hentry.trans hrun)]
    | ok r =>
      obtain ⟨r, s⟩ := r
      rw [Proc.bind_of_ok hrun, Proc.bind_of_ok (hentry.trans hrun)]
      cases r with
      | none => rfl
      | some fe =>
        have hloop := readExtents_kept h hkept fuel (.first hrun)
        simp only [Proc.bind_apply, hloop]
  simp only [udfReadFileEntry, Proc.bind_apply, hchain]

theorem udfReadDir_kept (h : OneCopyLeft image p logical lost)
    (hkept : ∀ loc, DirReads image part icb loc → KeptExtent part p logical lost loc)
    (fuel : Nat) (dir : List UdfFileIdentifier) :
    udfReadDir (faultFree (damaged image lost)) fuel part icb dir () =
      udfReadDir (faultFree image) fuel part icb dir () := by
  have hentry := udfReadFileEntry_kept h (fun loc hloc => hkept loc (.entry hloc)) fuel
  unfold udfReadDir
  cases hrun : udfReadFileEntry (faultFree image) fuel part icb () with
  | error t => rw [Proc.bind_of_error hrun, Proc.bind_of_error (hentry.trans hrun)]
  | ok r =>
    obtain ⟨r, s⟩ := r
    rw [Proc.bind_of_ok hrun, Proc.bind_of_ok (hentry.trans hrun)]
    cases r with
    | none => rfl
    | some fe =>
      simp only [readDirOf]
      split
      · rfl
      · rename_i hdir
        cases hu : fe.u with
        | data content => rfl
        | ads t ads =>
          cases ads with
          | nil => rfl
          | cons ad rest =>
            have hread := readMetadata_kept h
              (hkept ad (.content hrun (not_not.mp hdir) ⟨t, rest, hu⟩))
            simp only [readDirFile, Proc.bind_apply, hread]

/-! ## The file set -/

theorem udfFindRootDir_kept (h : OneCopyLeft image p logical lost) {fuel : Nat} {fsdLoc : LongAd}
    {root : Option LongAd}
    (hkept : ∀ xs, Asks (faultFree image) part fsdLoc () xs → ∀ x ∈ xs,
      KeptExtent part p logical lost { fsdLoc with lba := x, length := 2048 })
    (hrun : udfFindRootDir (faultFree image) fuel part fsdLoc () = .ok (root, ())) :
    udfFindRootDir (faultFree (damaged image lost)) fuel part fsdLoc () = .ok (root, ()) := by
  rw [udfFindRootDir_eq] at hrun ⊢
  obtain ⟨r, s, hscan, hend⟩ := Proc.bind_eq_ok.mp hrun
  have hscan' : scanTo (visitFileSet (faultFree (damaged image lost)) part fsdLoc)
      (lastBlock fsdLoc) fuel fsdLoc.lba () = .ok (r, s) :=
    scanTo_congr (fun xs hxs x hx => ?_) hscan
  · rw [Proc.bind_of_ok hscan']
    exact hend
  · have hone : 1 ≤ ({ fsdLoc with lba := x, length := 2048 } : LongAd).length.toNat := by
      show 1 ≤ (2048 : UInt32).toNat
      decide
    have hread := readMetadataBlocks_kept h (hkept xs ⟨r, s, hxs⟩ x hx) hone
    funext s
    simp only [visitFileSet, Proc.bind_apply, hread]

/-- With one good copy of each logical block, metadata is read as on the undamaged image, as far as
the run there reads blocks of the partition or blocks that are not lost. -/
theorem oneCopy_enough (h : OneCopyLeft image p logical lost) :
    (∀ fuel fsdLoc root,
      (∀ xs, Asks (faultFree image) part fsdLoc () xs → ∀ x ∈ xs,
        KeptExtent part p logical lost { fsdLoc with lba := x, length := 2048 }) →
      udfFindRootDir (faultFree image) fuel part fsdLoc () = .ok (root, ()) →
      udfFindRootDir (faultFree (damaged image lost)) fuel part fsdLoc () = .ok (root, ())) ∧
    (∀ fuel icb fe,
      (∀ loc, EntryReads image part icb loc → KeptExtent part p logical lost loc) →
      udfReadFileEntry (faultFree image) fuel part icb () = .ok (fe, ()) →
      udfReadFileEntry (faultFree (damaged image lost)) fuel part icb () = .ok (fe, ())) ∧
    ∀ fuel icb dir r,
      (∀ loc, DirReads image part icb loc → KeptExtent part p logical lost loc) →
      udfReadDir (faultFree image) fuel part icb dir () = .ok (r, ()) →
      udfReadDir (faultFree (damaged image lost)) fuel part icb dir () = .ok (r, ()) :=
  ⟨fun _ _ _ hkept hrun => udfFindRootDir_kept h hkept hrun,
    fun fuel _ _ hkept hrun => (udfReadFileEntry_kept h hkept fuel).trans hrun,
    fun fuel _ dir _ hkept hrun => (udfReadDir_kept h hkept fuel dir).trans hrun⟩

end

/-! ## A mirrored directory -/

/-- Partition 1 lies in partition 0, from its block 5 on, with a mirror from its block 10 on. -/
def mirroredTable : UdfPartitions where
  numPartition := 2
  p0 := { number := 0, lba := 300, mirrorLba := 0 }
  p1 := { number := 1, lba := 305, mirrorLba := 310 }

/-- Block 0 of partition 1 is the file entry of a directory with its content in block `lba` of
partition `partition`, block 1 is a directory with one file. -/
def mirroredImage (partition lba : UInt8) : Image := fun n =>
  if n = 305 ∨ n = 310 then
    some (withField 20 [4] (withField 27 [4] (withField 34 [1] (withField 172 [16]
      (withField 176 [40, 0, 0, 0, lba, 0, 0, 0, partition] (tagged 261))))))
  else if n = 306 ∨ n = 311 then some (withField 18 [0, 2] (withField 38 [8, 100] (tagged 257)))
  else none

def mirroredLogical (x : UInt32) : Prop := x = 0 ∨ x = 1

instance (x : UInt32) : Decidable (mirroredLogical x) := inferInstanceAs (Decidable (_ ∨ _))

def mirroredIcb (lba : UInt32) : LongAd := { lba, length := 2048, partition := 1, extentType := 0 }

def fileD : UdfFileIdentifier where
  filename := [100]
  icb := { lba := 0, length := 0, partition := 0, extentType := 0 }
  characteristic := 0

def lostBlocks (lbas : List UInt32) (lba : UInt32) : Bool := lbas.contains lba

theorem lostBlocks_false {lbas : List UInt32} {lba : UInt32} :
    lostBlocks lbas lba = false ↔ lba ∉ lbas := by
  simp [lostBlocks]

theorem mirroredImage_copies (partition lba : UInt8) {lbas : List UInt32}
    (hinside : ∀ n ∈ lbas, n = 305 ∨ n = 306 ∨ n = 310 ∨ n = 311)
    (hfirst : 305 ∉ lbas ∨ 310 ∉ lbas) (hsecond : 306 ∉ lbas ∨ 311 ∉ lbas) :
    OneCopyLeft (mirroredImage partition lba) mirroredTable.p1 mirroredLogical
      (lostBlocks lbas) where
  mirror := by decide
  equal := by
    rintro x (rfl | rfl)
    · exact ⟨_, _, rfl, rfl, rfl⟩
    · exact ⟨_, _, rfl, rfl, rfl⟩
  left := by
    rintro x (rfl | rfl)
    · exact hfirst.imp lostBlocks_false.mpr lostBlocks_false.mpr
    · exact hsecond.imp lostBlocks_false.mpr lostBlocks_false.mpr
  others := by
    intro n hn
    rcases hinside n (by simpa [lostBlocks] using hn) with rfl | rfl | rfl | rfl
    · exact ⟨0, .inl rfl, .inl rfl⟩
    · exact ⟨1, .inr rfl, .inl rfl⟩
    · exact ⟨0, .inl rfl, .inr ⟨by decide, rfl⟩⟩
    · exact ⟨1, .inr rfl, .inr ⟨by decide, rfl⟩⟩

/-- The file entry of the directory. -/
def mirroredEntry (partition : UInt16) : FileEntry where
  length := 0
  fileType := fileTypeDir
  u := .ads .long [{ lba := 1, length := 40, partition, extentType := 0 }]

theorem mirroredImage_entry :
    readEntryBlock (faultFree (mirroredImage 1 1)) mirroredTable (mirroredIcb 0) () =
      .ok (some (mirroredEntry 1), ()) := by
  decide +kernel

theorem mirroredImage_dirReads {loc : LongAd}
    (h : DirReads (mirroredImage 1 1) mirroredTable (mirroredIcb 0) loc) :
    loc = mirroredIcb 0 ∨ loc = { lba := 1, length := 40, partition := 1, extentType := 0 } := by
  have hsteps : ∀ fe, EntrySteps (mirroredImage 1 1) mirroredTable (mirroredIcb 0) fe →
      fe = mirroredEntry 1 := by
    intro fe hfe
    induction hfe with
    | first hread =>
      rw [mirroredImage_entry] at hread
      cases hread
      rfl
    | next _ hdrop _ _ ih =>
      rw [ih] at hdrop
      cases hdrop
  cases h with
  | entry h =>
    cases h with
    | entry => exact .inl rfl
    | extent hfe hdrop =>
      rw [hsteps _ hfe] at hdrop
      cases hdrop
  | @content fuel _ _ hread _ hfirst =>
    obtain ⟨r, s, hchain, hread⟩ := Proc.bind_eq_ok.mp hread
    rw [readFileEntryChain, Proc.bind_of_ok mirroredImage_entry] at hchain
    cases fuel with
    | zero => cases hchain
    | succ fuel =>
      cases hchain
      cases hread
      obtain ⟨t, rest, hu⟩ := hfirst
      cases hu
      exact .inr rfl

theorem mirroredImage_dir :
    udfReadDir (faultFree (mirroredImage 1 1)) 1 mirroredTable (mirroredIcb 0) [] () =
      .ok ((0, [fileD]), ()) := by
  decide +kernel

/-- Two lost blocks, in different copies. -/
theorem oneCopy_enough_mirrored :
    udfReadDir (faultFree (damaged (mirroredImage 1 1) (lostBlocks [305, 311]))) 1 mirroredTable
      (mirroredIcb 0) [] () = .ok ((0, [fileD]), ()) := by
  have hcopies : OneCopyLeft (mirroredImage 1 1) mirroredTable.p1 mirroredLogical
      (lostBlocks [305, 311]) :=
    mirroredImage_copies 1 1 (by simp) (by simp) (by simp)
  refine (oneCopy_enough hcopies).2.2 1 (mirroredIcb 0) [] (0, [fileD])
    (fun loc hloc q hq k hk => ?_) mirroredImage_dir
  rcases mirroredImage_dirReads hloc with rfl | rfl
  · obtain rfl : k = 0 := Nat.lt_one_iff.mp hk
    cases hq
    exact .inl ⟨rfl, .inl rfl⟩
  · obtain rfl : k = 0 := Nat.lt_one_iff.mp hk
    cases hq
    exact .inl ⟨rfl, .inr rfl⟩

/-- The content of the directory is read through partition 0, which has no mirror; and a block that
is none of the partition's logical blocks is the mirror of one. -/
theorem oneCopy_not_enough :
    OneCopyLeft (mirroredImage 0 6) mirroredTable.p1 mirroredLogical (lostBlocks [306]) ∧
    udfReadDir (faultFree (mirroredImage 0 6)) 1 mirroredTable (mirroredIcb 0) [] () =
      .ok ((0, [fileD]), ()) ∧
    udfReadDir (faultFree (damaged (mirroredImage 0 6) (lostBlocks [306]))) 1 mirroredTable
      (mirroredIcb 0) [] () = .ok ((-1, []), ()) ∧
    OneCopyLeft (mirroredImage 1 1) mirroredTable.p1 mirroredLogical (lostBlocks [310]) ∧
    udfReadDir (faultFree (mirroredImage 1 1)) 1 mirroredTable (mirroredIcb 5) [] () =
      .ok ((0, [fileD]), ()) ∧
    udfReadDir (faultFree (damaged (mirroredImage 1 1) (lostBlocks [310]))) 1 mirroredTable
      (mirroredIcb 5) [] () = .ok ((-1, []), ()) := by
  refine ⟨mirroredImage_copies 0 6 (by simp) (by simp) (by simp), ?_, ?_,
    mirroredImage_copies 1 1 (by simp) (by simp) (by simp), ?_, ?_⟩
  all_goals decide +kernel

end UdfRead
