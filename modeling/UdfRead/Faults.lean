import UdfRead.Image
import UdfRead.Fs

/-!
# UdfRead.Faults

Reading a directory over an input whose reads may fail now and then. Each read of metadata that
works gives what it gives on the image itself. A failed read of an allocation extent cuts the chain
of descriptors off; only the first descriptor of a directory is read, and a cut keeps it unless the
image has put a continuation descriptor there (`udfReadDir_faulty`).
-/

namespace UdfRead

open CModel

/-- Each read of a block fails, or gives the block of the image. -/
def BlockInput.Faults {σ : Type} (I : BlockInput σ) (image : Image) : Prop :=
  ∀ lba s buf s', I.readBlock lba s = .ok (some buf, s') →
    ∃ data, image lba = some data ∧ buf = blockBytes data

/-- Where the image holds both copies of logical block `x` of the partition, they are equal. -/
def CopiesAgree (image : Image) (p : Partition) (x : UInt32) : Prop :=
  p.mirrorLba ≠ 0 → ∀ a b, image (p.lba + x) = some a → image (p.mirrorLba + x) = some b →
    blockBytes a = blockBytes b

/-- The mirror copies of the blocks of the extent equal the primary ones. -/
def ExtentAgrees (image : Image) (part : UdfPartitions) (loc : LongAd) : Prop :=
  ∀ p, partitionOf part loc.partition = some p →
    ∀ k, k < (loc.length.toNat + 2047) / 2048 → CopiesAgree image p (loc.lba + UInt32.ofNat k)

/-- The input that reads the image without a fault. -/
def faultFree (image : Image) : BlockInput Unit := .ofImage image none

/-! ## What a run reads -/

/-- The file entries that the loop over the allocation extents goes through. -/
inductive EntrySteps (image : Image) (part : UdfPartitions) (icb : LongAd) : FileEntry → Prop where
  | first {fe : FileEntry} :
      readEntryBlock (faultFree image) part icb () = .ok (some fe, ()) →
      EntrySteps image part icb fe
  | next {fe fe' fe'' : FileEntry} {loc : LongAd} {buf : Bytes} :
      EntrySteps image part icb fe → fe.dropContinuation = some (loc, fe') →
      readMetadata (faultFree image) part loc () =
        .ok (some (.allocationExtentDescriptor, buf), ()) →
      decodeAllocationExtent fe' buf loc.length.toNat loc.partition = .ok (some fe'') →
      EntrySteps image part icb fe''

/-- The extents that `udf_read_file_entry` reads. -/
inductive EntryReads (image : Image) (part : UdfPartitions) (icb : LongAd) : LongAd → Prop where
  | entry : EntryReads image part icb icb
  | extent {fe fe' : FileEntry} {loc : LongAd} :
      EntrySteps image part icb fe → fe.dropContinuation = some (loc, fe') →
      EntryReads image part icb loc

/-- The first descriptor of a file entry. -/
def FileEntry.First (fe : FileEntry) (ad : LongAd) : Prop := ∃ t rest, fe.u = .ads t (ad :: rest)

/-- The extents that `udf_read_dir` reads. -/
inductive DirReads (image : Image) (part : UdfPartitions) (icb : LongAd) : LongAd → Prop where
  | entry {loc : LongAd} : EntryReads image part icb loc → DirReads image part icb loc
  | content {fuel : Nat} {fe : FileEntry} {ad : LongAd} :
      udfReadFileEntry (faultFree image) fuel part icb () = .ok (some fe, ()) →
      fe.fileType = fileTypeDir → fe.First ad → DirReads image part icb ad

section

variable {σ : Type} {I : BlockInput σ} {image : Image} {part : UdfPartitions} {icb : LongAd}

/-! ## Metadata -/

theorem readDescriptorBlock_faulty (hI : I.Faults image) {lba : UInt32} {s s' : σ}
    {tag : TagIdentifier} {buf : Bytes} (h : I.readDescriptorBlock lba s = .ok ((tag, buf), s'))
    (htag : tag ≠ .invalid) : imageTag image lba = (tag, buf) := by
  obtain ⟨r, s₁, hread, h⟩ := Proc.bind_eq_ok.mp h
  cases r with
  | none =>
    cases h
    exact absurd rfl htag
  | some b =>
    obtain ⟨data, himage, hb⟩ := hI _ _ _ _ hread
    obtain ⟨t, ht⟩ := decodeDescriptorTag_ok (p := b) (i := 0) (by rw [hb]; simp)
    simp only [ht] at h
    unfold imageTag
    simp only [himage, ← hb, ht]
    exact congrArg Prod.fst (Except.ok.inj h)

theorem imageTag_valid (image : Image) (lba : UInt32) (h : (imageTag image lba).1 ≠ .invalid) :
    ∃ data, image lba = some data := by
  cases himage : image lba with
  | none => simp [imageTag, himage] at h
  | some data => exact ⟨data, rfl⟩

theorem imageTag_congr {lba lba' : UInt32} {a b : Nat → UInt8} (ha : image lba = some a)
    (hb : image lba' = some b) (h : blockBytes a = blockBytes b) :
    imageTag image lba = imageTag image lba' := by
  unfold imageTag
  simp only [ha, hb, h]

theorem readFirst_faultFree (p : Partition) (loc : LongAd) :
    readFirst (faultFree image) p loc () =
      .ok (if (imageTag image (p.lba + loc.lba)).1 = .invalid ∧ p.mirrorLba ≠ 0 then
        imageTag image (p.mirrorLba + loc.lba) else imageTag image (p.lba + loc.lba), ()) := by
  unfold readFirst faultFree
  rw [Proc.bind_of_ok (readDescriptorBlock_ofImage _)]
  simp only
  split
  · exact readDescriptorBlock_ofImage _
  · rfl

theorem readFirst_faulty (hI : I.Faults image) {p : Partition} {loc : LongAd}
    (hp : CopiesAgree image p loc.lba) {s s' : σ} {tag : TagIdentifier} {buf : Bytes}
    (h : readFirst I p loc s = .ok ((tag, buf), s')) (htag : tag ≠ .invalid) :
    readFirst (faultFree image) p loc () = .ok ((tag, buf), ()) := by
  rw [readFirst_faultFree]
  obtain ⟨⟨tag₁, buf₁⟩, s₁, hread, h⟩ := Proc.bind_eq_ok.mp h
  simp only at h
  by_cases hmirror : tag₁ = .invalid ∧ p.mirrorLba ≠ 0
  · rw [if_pos hmirror] at h
    have hcopy := readDescriptorBlock_faulty hI h htag
    split
    · rw [hcopy]
    · rename_i hvalid
      -- the primary copy could not be read this time
      obtain ⟨a, ha⟩ := imageTag_valid image (p.lba + loc.lba)
        (fun hc => hvalid ⟨hc, hmirror.2⟩)
      obtain ⟨b, hb⟩ := imageTag_valid image (p.mirrorLba + loc.lba)
        (by rw [hcopy]; exact htag)
      rw [imageTag_congr ha hb (hp hmirror.2 _ _ ha hb), hcopy]
  · rw [if_neg hmirror] at h
    cases h
    rw [readDescriptorBlock_faulty hI hread htag, if_neg fun hc => htag hc.1]

theorem readFollowing_faultFree (p : Partition) (loc : LongAd) (i : UInt32) :
    readFollowing (faultFree image) p loc i () =
      .ok (match image (p.lba + loc.lba + i) with
        | some a => some (blockBytes a)
        | none => if p.mirrorLba ≠ 0 then (image (p.mirrorLba + loc.lba + i)).map blockBytes
          else none, ()) := by
  unfold readFollowing faultFree
  rw [Proc.bind_of_ok (readBlock_ofImage _)]
  cases image (p.lba + loc.lba + i) with
  | some a => rfl
  | none =>
    simp only [Option.map_none]
    split
    · exact readBlock_ofImage _
    · rfl

theorem readFollowing_faulty (hI : I.Faults image) {p : Partition} {loc : LongAd} {i : UInt32}
    (hp : CopiesAgree image p (loc.lba + i)) {s s' : σ} {block : Bytes}
    (h : readFollowing I p loc i s = .ok (some block, s')) :
    readFollowing (faultFree image) p loc i () = .ok (some block, ()) := by
  rw [readFollowing_faultFree]
  obtain ⟨r, s₁, hread, h⟩ := Proc.bind_eq_ok.mp h
  cases r with
  | some b =>
    obtain ⟨a, himage, hb⟩ := hI _ _ _ _ hread
    have hblock : some b = some block := congrArg Prod.fst (Except.ok.inj h)
    simp only [himage, ← hb, hblock]
  | none =>
    simp only at h
    by_cases hmirror : p.mirrorLba ≠ 0
    · rw [if_pos hmirror] at h
      obtain ⟨b, himage, hb⟩ := hI _ _ _ _ h
      cases hfirst : image (p.lba + loc.lba + i) with
      | none => simp only [if_pos hmirror, himage, Option.map_some, hb]
      | some a =>
        rw [UInt32.add_assoc] at himage hfirst
        simp only [hp hmirror _ _ hfirst himage, hb]
    · rw [if_neg hmirror] at h
      cases h

theorem readFollowingLoop_faulty (hI : I.Faults image) {p : Partition} {loc : LongAd} {n : Nat}
    {i : UInt32} (hp : ∀ k < n, CopiesAgree image p (loc.lba + (i + UInt32.ofNat k)))
    {buf data : Bytes} {s s' : σ}
    (h : readFollowingLoop I p loc n i buf s = .ok (some data, s')) :
    readFollowingLoop (faultFree image) p loc n i buf () = .ok (some data, ()) := by
  induction n generalizing i buf s with
  | zero =>
    cases h
    rfl
  | succ n ih =>
    obtain ⟨r, s₁, hread, h⟩ := Proc.bind_eq_ok.mp h
    cases r with
    | none => cases h
    | some block =>
      have hi := hp 0 (Nat.succ_pos n)
      rw [add_ofNat_zero] at hi
      rw [readFollowingLoop, Proc.bind_of_ok (readFollowing_faulty hI hi hread)]
      refine ih (fun k hk => ?_) h
      rw [add_one_ofNat]
      exact hp (k + 1) (Nat.succ_lt_succ hk)

theorem readMetadata_faulty (hI : I.Faults image) {loc : LongAd}
    (hagree : ExtentAgrees image part loc) {tag : TagIdentifier} {buf : Bytes} {s s' : σ}
    (h : readMetadata I part loc s = .ok (some (tag, buf), s')) :
    readMetadata (faultFree image) part loc () = .ok (some (tag, buf), ()) := by
  unfold readMetadata at h ⊢
  split at h
  · cases h
  · rename_i hblocks
    have hlen := length_pos_of_blocks hblocks
    rw [if_neg hblocks]
    unfold readMetadataBlocks at h ⊢
    cases hp : partitionOf part loc.partition with
    | none =>
      rw [hp] at h
      cases h
    | some p =>
      rw [hp] at h
      have hcopies := hagree p hp
      have hcopy := hcopies 0 (by omega)
      rw [add_ofNat_zero] at hcopy
      obtain ⟨⟨tag₁, buf₁⟩, s₁, hfirst, h⟩ := Proc.bind_eq_ok.mp h
      simp only at h ⊢
      by_cases htag : tag₁ = .invalid
      · rw [if_pos htag] at h
        cases h
      · rw [if_neg htag] at h
        obtain ⟨r, s₂, hloop, h⟩ := Proc.bind_eq_ok.mp h
        cases r with
        | none => cases h
        | some data =>
          cases h
          have hrest : ∀ k < ((loc.length - 1) / 2048).toNat,
              CopiesAgree image p (loc.lba + (1 + UInt32.ofNat k)) := by
            intro k hk
            rw [following_blocks hlen] at hk
            have hk' := hcopies (k + 1) (by omega)
            rwa [UInt32.ofNat_add, UInt32.add_comm (UInt32.ofNat k)] at hk'
          rw [Proc.bind_of_ok (readFirst_faulty hI hcopy hfirst htag)]
          simp only [htag, if_false]
          rw [Proc.bind_of_ok (readFollowingLoop_faulty hI hrest hloop)]
          rfl

theorem ofRes_state {α : Type} {x : Res α} {a : α} {s s' : σ}
    (h : Proc.ofRes x s = .ok (a, s')) : (Proc.ofRes x : Proc Unit α) () = .ok (a, ()) :=
  Proc.ofRes_eq_ok.mpr ⟨(Proc.ofRes_eq_ok.mp h).1, rfl⟩

theorem readEntryBlock_faulty (hI : I.Faults image) (hagree : ExtentAgrees image part icb)
    {fe : FileEntry} {s s' : σ} (h : readEntryBlock I part icb s = .ok (some fe, s')) :
    readEntryBlock (faultFree image) part icb () = .ok (some fe, ()) := by
  obtain ⟨r, s₁, hread, h⟩ := Proc.bind_eq_ok.mp h
  cases r with
  | none => cases h
  | some b =>
    obtain ⟨tag, buf⟩ := b
    rw [readEntryBlock, Proc.bind_of_ok (readMetadata_faulty hI hagree hread)]
    simp only at h ⊢
    split at h
    · rw [if_pos ‹_›]
      exact ofRes_state h
    · rw [if_neg ‹_›]
      split at h
      · rw [if_pos ‹_›]
        exact ofRes_state h
      · cases h

/-! ## Chains -/

/-- `g` is the file entry that is left when the chain of `fe` is cut off behind one of its
continuation descriptors. -/
inductive CutAt (image : Image) (part : UdfPartitions) : FileEntry → FileEntry → Prop where
  | here {fe g : FileEntry} {icb : LongAd} :
      fe.dropContinuation = some (icb, g) → CutAt image part fe g
  | next {fe fe' fe'' g : FileEntry} {icb : LongAd} {buf : Bytes} :
      fe.dropContinuation = some (icb, fe') →
      readMetadata (faultFree image) part icb () =
        .ok (some (.allocationExtentDescriptor, buf), ()) →
      decodeAllocationExtent fe' buf icb.length.toNat icb.partition = .ok (some fe'') →
      CutAt image part fe'' g → CutAt image part fe g

/-- The loop over the allocation extents goes as on the image, or is cut off. -/
theorem readExtents_faulty (hI : I.Faults image)
    (hagree : ∀ loc, EntryReads image part icb loc → ExtentAgrees image part loc) {fuel : Nat}
    {fe fe' : FileEntry} (hfe : EntrySteps image part icb fe) {e : ChainEnd} {s s' : σ}
    (h : readExtents I part fuel fe s = .ok ((fe', e), s')) :
    readExtents (faultFree image) part fuel fe () = .ok ((fe', e), ()) ∨ CutAt image part fe fe' := by
  induction fuel generalizing fe s with
  | zero => cases h
  | succ fuel ih =>
    rw [readExtents] at h ⊢
    cases hd : fe.dropContinuation with
    | none =>
      rw [hd] at h
      cases h
      exact .inl rfl
    | some r =>
      obtain ⟨loc, g⟩ := r
      rw [hd] at h
      obtain ⟨m, s₁, hread, h⟩ := Proc.bind_eq_ok.mp h
      cases m with
      | none =>
        cases h
        exact .inr (.here hd)
      | some b =>
        obtain ⟨tag, buf⟩ := b
        have hfree := readMetadata_faulty hI (hagree loc (.extent hfe hd)) hread
        simp only at h ⊢
        rw [Proc.bind_of_ok hfree]
        by_cases htag : tag = .allocationExtentDescriptor
        · subst htag
          simp only [ne_eq, not_true, if_false] at h ⊢
          obtain ⟨d, s₂, hdec, h⟩ := Proc.bind_eq_ok.mp h
          rw [Proc.bind_of_ok (ofRes_state hdec)]
          cases d with
          | none =>
            cases h
            exact .inl rfl
          | some fe₂ =>
            have hres := (Proc.ofRes_eq_ok.mp hdec).1
            exact (ih (.next hfe hd hfree hres) h).imp id fun hcut => .next hd hfree hres hcut
        · simp only [htag, ne_eq, not_false_iff, if_true] at h ⊢
          cases h
          exact .inl rfl

/-- The parts of a file entry a chain leaves alone: the type and, unless it is a continuation
descriptor, the first descriptor. -/
theorem dropContinuation_first {fe g : FileEntry} {icb ad : LongAd} (hfirst : fe.First ad)
    (had : ad.extentType ≠ LongAd.extentAd) (h : fe.dropContinuation = some (icb, g)) :
    g.First ad := by
  obtain ⟨t, rest, hu⟩ := hfirst
  unfold FileEntry.dropContinuation at h
  rw [hu] at h
  simp only at h
  cases rest with
  | nil =>
    simp only [List.getLast?_singleton, had, if_false] at h
    cases h
  | cons d rest =>
    cases hlast : (ad :: d :: rest).getLast? with
    | none =>
      rw [hlast] at h
      cases h
    | some last =>
      rw [hlast] at h
      simp only at h
      split at h
      · cases h
        exact ⟨t, (d :: rest).dropLast, rfl⟩
      · cases h

theorem dropContinuation_fileType {fe g : FileEntry} {icb : LongAd}
    (h : fe.dropContinuation = some (icb, g)) : g.fileType = fe.fileType := by
  unfold FileEntry.dropContinuation at h
  split at h
  · cases h
  · split at h
    · cases h
    · split at h
      · cases h
        rfl
      · cases h

/-- The descriptors are stored behind those that are there. -/
theorem decodeFileAds_append {p : Bytes} {t : AdType} {partition : UInt16} {cap n i : Nat}
    {ad ad' : List LongAd} (h : decodeFileAds p t partition cap n i ad = .ok ad') :
    ∃ more, ad' = ad ++ more := by
  induction n generalizing i ad with
  | zero =>
    cases h
    exact ⟨[], (List.append_nil _).symm⟩
  | succ n ih =>
    obtain ⟨d, -, h⟩ := Res.bind_eq_ok.mp h
    obtain ⟨l, hstore, h⟩ := Res.bind_eq_ok.mp h
    unfold storeAd at hstore
    split at hstore
    · cases hstore
      obtain ⟨more, hmore⟩ := ih h
      exact ⟨d :: more, by rw [hmore, List.append_assoc]; rfl⟩
    · cases hstore

theorem decodeAllocationExtent_some {fe fe' : FileEntry} {buf : Bytes} {size : Nat}
    {partition : UInt16} (h : decodeAllocationExtent fe buf size partition = .ok (some fe')) :
    fe'.fileType = fe.fileType ∧ ∀ ad, fe.First ad → fe'.First ad := by
  obtain ⟨lAd, -, h⟩ := Res.bind_eq_ok.mp h
  split at h
  · cases h
  · split at h
    · cases h
    · rename_i t l hu
      simp only at h
      split at h
      · cases h
        exact ⟨rfl, fun _ h => h⟩
      · obtain ⟨l', hads, h⟩ := Res.bind_eq_ok.mp h
        cases h
        refine ⟨rfl, ?_⟩
        rintro ad ⟨t', rest, hu'⟩
        obtain ⟨more, rfl⟩ := decodeFileAds_append hads
        rw [hu] at hu'
        cases hu'
        exact ⟨_, rest ++ more, rfl⟩

/-- The chain keeps a first descriptor that is no continuation descriptor. -/
theorem readExtents_first {fuel : Nat} {fe fe' : FileEntry} {e : ChainEnd} {ad : LongAd} {s s' : σ}
    (h : readExtents I part fuel fe s = .ok ((fe', e), s')) :
    fe'.fileType = fe.fileType ∧
      (ad.extentType ≠ LongAd.extentAd → fe.First ad → fe'.First ad) := by
  induction fuel generalizing fe s with
  | zero => cases h
  | succ fuel ih =>
    rw [readExtents] at h
    cases hd : fe.dropContinuation with
    | none =>
      rw [hd] at h
      cases h
      exact ⟨rfl, fun _ h => h⟩
    | some r =>
      obtain ⟨icb, g⟩ := r
      have hkeep : g.fileType = fe.fileType ∧
          (ad.extentType ≠ LongAd.extentAd → fe.First ad → g.First ad) :=
        ⟨dropContinuation_fileType hd, fun had hf => dropContinuation_first hf had hd⟩
      rw [hd] at h
      obtain ⟨m, s₁, -, h⟩ := Proc.bind_eq_ok.mp h
      cases m with
      | none =>
        cases h
        exact hkeep
      | some b =>
        obtain ⟨tag, buf⟩ := b
        simp only at h
        split at h
        · cases h
          exact hkeep
        · obtain ⟨d, s₂, hdec, h⟩ := Proc.bind_eq_ok.mp h
          cases d with
          | none =>
            cases h
            exact hkeep
          | some fe₂ =>
            have hres := (Proc.ofRes_eq_ok.mp hdec).1
            obtain ⟨htype, hfirst⟩ := decodeAllocationExtent_some hres
            obtain ⟨htype', hfirst'⟩ := ih h
            exact ⟨htype'.trans (htype.trans hkeep.1), fun had hf =>
              hfirst' had (hfirst ad (hkeep.2 had hf))⟩

/-- A cut leaves the first descriptor of the whole chain, or a continuation descriptor. -/
theorem readExtents_cut {fuel : Nat} {fe fe' g : FileEntry} {e : ChainEnd} {ad : LongAd}
    (h : readExtents (faultFree image) part fuel fe () = .ok ((fe', e), ()))
    (hcut : CutAt image part fe g) (hfirst : g.First ad) (had : ad.extentType ≠ LongAd.extentAd) :
    fe'.First ad ∧ fe'.fileType = g.fileType := by
  induction hcut generalizing fuel with
  | here hd =>
    cases fuel with
    | zero => cases h
    | succ fuel =>
      rw [readExtents, hd] at h
      obtain ⟨m, s₁, -, h⟩ := Proc.bind_eq_ok.mp h
      cases m with
      | none =>
        cases h
        exact ⟨hfirst, rfl⟩
      | some b =>
        obtain ⟨tag, buf⟩ := b
        simp only at h
        split at h
        · cases h
          exact ⟨hfirst, rfl⟩
        · obtain ⟨d, s₂, hdec, h⟩ := Proc.bind_eq_ok.mp h
          cases d with
          | none =>
            cases h
            exact ⟨hfirst, rfl⟩
          | some fe₂ =>
            obtain ⟨htype, hkeep⟩ := decodeAllocationExtent_some (Proc.ofRes_eq_ok.mp hdec).1
            obtain ⟨htype', hkeep'⟩ := readExtents_first h
            exact ⟨hkeep' had (hkeep ad hfirst), htype'.trans htype⟩
  | next hd hread hdec hcut ih =>
    cases fuel with
    | zero => cases h
    | succ fuel =>
      rw [readExtents, hd] at h
      simp only at h
      rw [Proc.bind_of_ok hread] at h
      simp only [ne_eq, not_true, if_false] at h
      rw [hdec] at h
      exact ih h hfirst

/-! ## Directories -/

/-- The listing that `udf_read_dir` reads from the image. -/
def Lists (image : Image) (part : UdfPartitions) (icb : LongAd) (entries : List UdfFileIdentifier) :
    Prop :=
  ∃ fuel r, udfReadDir (faultFree image) fuel part icb [] () = .ok ((r, entries), ()) ∧ 0 ≤ r

/-- Reading the directory from the image ends. -/
def ReadEnds (image : Image) (part : UdfPartitions) (icb : LongAd) : Prop :=
  ∃ fuel r, udfReadDir (faultFree image) fuel part icb [] () = .ok r

/-- No cut of the chain of a directory's file entry leaves a continuation descriptor in front. -/
def NoPointerFirst (image : Image) (part : UdfPartitions) (icb : LongAd) : Prop :=
  ∀ fe g ad, readEntryBlock (faultFree image) part icb () = .ok (some fe, ()) →
    fe.fileType = fileTypeDir → CutAt image part fe g → g.First ad →
    ad.extentType ≠ LongAd.extentAd

theorem readDirFile_faulty (hI : I.Faults image) {loc : LongAd}
    (hagree : ExtentAgrees image part loc) {dir entries : List UdfFileIdentifier} {r : Int} {s s' : σ}
    (h : readDirFile I part loc dir s = .ok ((r, entries), s')) (hr : 0 ≤ r) :
    readDirFile (faultFree image) part loc dir () = .ok ((r, entries), ()) := by
  obtain ⟨m, s₁, hread, h⟩ := Proc.bind_eq_ok.mp h
  cases m with
  | none =>
    cases h
    omega
  | some b =>
    obtain ⟨tag, data⟩ := b
    rw [readDirFile, Proc.bind_of_ok (readMetadata_faulty hI hagree hread)]
    exact ofRes_state h

theorem readDirOf_faulty (hI : I.Faults image) {fe : FileEntry}
    (hagree : ∀ ad, fe.First ad → ExtentAgrees image part ad)
    {dir entries : List UdfFileIdentifier} {r : Int} {s s' : σ}
    (h : readDirOf I part fe dir s = .ok ((r, entries), s')) (hr : 0 ≤ r) :
    readDirOf (faultFree image) part fe dir () = .ok ((r, entries), ()) := by
  unfold readDirOf at h ⊢
  split at h
  · cases h
    omega
  · rw [if_neg ‹_›]
    cases hu : fe.u with
    | data content =>
      rw [hu] at h
      exact ofRes_state h
    | ads t l =>
      cases l with
      | nil =>
        rw [hu] at h
        cases h
        omega
      | cons ad rest =>
        rw [hu] at h
        exact readDirFile_faulty hI (hagree ad ⟨t, rest, hu⟩) h hr

theorem cutAt_ads {fe g : FileEntry} (h : CutAt image part fe g) : ∃ t l, g.u = .ads t l := by
  induction h with
  | here hd =>
    unfold FileEntry.dropContinuation at hd
    split at hd
    · cases hd
    · split at hd
      · cases hd
      · split at hd
        · cases hd
          exact ⟨_, _, rfl⟩
        · cases hd
  | next _ _ _ _ ih => exact ih

theorem cutAt_fileType {fe g : FileEntry} (h : CutAt image part fe g) :
    g.fileType = fe.fileType := by
  induction h with
  | here hd => exact dropContinuation_fileType hd
  | next hd _ hdec _ ih =>
    exact ih.trans ((decodeAllocationExtent_some hdec).1.trans (dropContinuation_fileType hd))

theorem cutAt_first {fe g : FileEntry} {ad : LongAd} (h : CutAt image part fe g)
    (hfirst : fe.First ad) (had : ad.extentType ≠ LongAd.extentAd) : g.First ad := by
  induction h with
  | here hd => exact dropContinuation_first hfirst had hd
  | next hd _ hdec _ ih =>
    exact ih ((decodeAllocationExtent_some hdec).2 ad (dropContinuation_first hfirst had hd))

/-- It is enough that the first descriptor in the entry itself is no continuation descriptor. -/
theorem noPointerFirst_of_first {fe : FileEntry} {ad : LongAd}
    (hread : readEntryBlock (faultFree image) part icb () = .ok (some fe, ()))
    (hfirst : fe.First ad) (had : ad.extentType ≠ LongAd.extentAd) :
    NoPointerFirst image part icb := by
  intro fe' g ad' hread' _ hcut hfirst'
  rw [hread] at hread'
  cases hread'
  obtain ⟨t, rest, hu⟩ := cutAt_first hcut hfirst had
  obtain ⟨t', rest', hu'⟩ := hfirst'
  rw [hu] at hu'
  cases hu'
  exact had

theorem readDirOf_fileType {fe : FileEntry} {dir entries : List UdfFileIdentifier} {r : Int}
    {s s' : σ} (h : readDirOf I part fe dir s = .ok ((r, entries), s')) (hr : 0 ≤ r) :
    fe.fileType = fileTypeDir := by
  by_contra hne
  rw [readDirOf, if_pos hne] at h
  cases h
  omega

/-- Where the chain was cut off, the first descriptor is the one that the image gives. -/
theorem readDirOf_cut {fe fe' g : FileEntry} {fuel : Nat} {e : ChainEnd} {r : Int}
    {entries : List UdfFileIdentifier}
    (hchain : readExtents (faultFree image) part fuel fe () = .ok ((fe', e), ()))
    (hcut : CutAt image part fe g) (hpointer : ∀ ad, g.First ad → ad.extentType ≠ LongAd.extentAd)
    (h : readDirOf (faultFree image) part g [] () = .ok ((r, entries), ())) (hr : 0 ≤ r) :
    readDirOf (faultFree image) part fe' [] () = .ok ((r, entries), ()) := by
  obtain ⟨t, l, hu⟩ := cutAt_ads hcut
  unfold readDirOf at h ⊢
  rw [hu] at h
  cases l with
  | nil =>
    split at h
    · cases h
      omega
    · cases h
      omega
  | cons ad rest =>
    have hfirst : g.First ad := ⟨t, rest, hu⟩
    obtain ⟨⟨t', rest', hu'⟩, htype⟩ := readExtents_cut hchain hcut hfirst (hpointer ad hfirst)
    rw [hu', htype]
    exact h

/-- A directory that could be read lists what the image lists. -/
theorem udfReadDir_faulty (hI : I.Faults image)
    (hagree : ∀ loc, DirReads image part icb loc → ExtentAgrees image part loc)
    (hend : ReadEnds image part icb) (hpointer : NoPointerFirst image part icb) {fuel : Nat}
    {entries : List UdfFileIdentifier} {r : Int} {s s' : σ}
    (h : udfReadDir I fuel part icb [] s = .ok ((r, entries), s')) (hr : 0 ≤ r) :
    Lists image part icb entries := by
  obtain ⟨m, s₁, hentry, h⟩ := Proc.bind_eq_ok.mp h
  obtain ⟨c, s₂, hchain, hm⟩ := Proc.bind_eq_ok.mp hentry
  cases hm
  obtain ⟨m, s₃, hblock, hchain⟩ := Proc.bind_eq_ok.mp hchain
  cases m with
  | none =>
    cases hchain
    cases h
    omega
  | some fe =>
    obtain ⟨⟨g, e⟩, s₄, hext, hchain⟩ := Proc.bind_eq_ok.mp hchain
    cases hchain
    have hfree := readEntryBlock_faulty hI (hagree icb (.entry .entry)) hblock
    have hdirType := readDirOf_fileType h hr
    have hfile : ∀ fuel fe' e', readExtents (faultFree image) part fuel fe () = .ok ((fe', e'), ()) →
        udfReadFileEntry (faultFree image) fuel part icb () = .ok (some fe', ()) := by
      intro fuel fe' e' hext'
      have hwhole : readFileEntryChain (faultFree image) fuel part icb () =
          .ok (some (fe', e'), ()) := by
        rw [readFileEntryChain, Proc.bind_of_ok hfree]
        exact Proc.bind_of_ok hext'
      exact Proc.bind_of_ok hwhole
    -- the first descriptor of what is left of the chain is that of the whole chain
    have hfirst : ∀ fuel fe' e', readExtents (faultFree image) part fuel fe () = .ok ((fe', e'), ()) →
        (∀ ad, g.First ad → fe'.First ad ∧ fe'.fileType = g.fileType) →
        ∀ ad, g.First ad → ExtentAgrees image part ad :=
      fun fuel fe' e' hext' hkeep ad had => hagree ad
        (.content (hfile _ _ _ hext') ((hkeep ad had).2.trans hdirType) (hkeep ad had).1)
    rcases readExtents_faulty hI (fun loc hloc => hagree loc (.entry hloc)) (.first hfree) hext with
      hsame | hcut
    · have hdir := readDirOf_faulty hI (hfirst fuel g e hsame fun _ h => ⟨h, rfl⟩) h hr
      refine ⟨fuel, r, ?_, hr⟩
      rw [udfReadDir, Proc.bind_of_ok (hfile _ _ _ hsame)]
      exact hdir
    · obtain ⟨fuel', R, hR⟩ := hend
      obtain ⟨m, s₅, hentry', -⟩ := Proc.bind_eq_ok.mp hR
      obtain ⟨m, s₆, hchain', -⟩ := Proc.bind_eq_ok.mp hentry'
      rw [readFileEntryChain, Proc.bind_of_ok hfree] at hchain'
      obtain ⟨⟨fe', e'⟩, s₇, hext', -⟩ := Proc.bind_eq_ok.mp hchain'
      have hplain := fun ad had =>
        hpointer fe g ad hfree ((cutAt_fileType hcut).symm.trans hdirType) hcut had
      have hdir := readDirOf_faulty hI (hfirst fuel' fe' e' hext' fun ad had =>
        readExtents_cut hext' hcut had (hplain ad had)) h hr
      refine ⟨fuel', r, ?_, hr⟩
      rw [udfReadDir, Proc.bind_of_ok (hfile _ _ _ hext')]
      exact readDirOf_cut hext' hcut hplain hdir hr

end

end UdfRead
