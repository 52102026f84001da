import UdfRead.ByteStream
import UdfRead.Dir
import UdfRead.Faults
import UdfRead.FileIdentifiers
import UdfRead.Metadata
import UdfRead.Lib.Expansion

/-!
# UdfRead.EntryTermination

When reading a file entry ends. The loop over the allocation extents replaces the last descriptor by
those of the extent it points at, until the last one is no pointer or cannot be followed. This ends
exactly if no descriptor that becomes the last one is behind itself, that is, is put in its own
place (`udfReadFileEntry_returns_iff`).
-/

namespace UdfRead

open CModel

/-- The descriptors that the loop puts in the place of `ad`; `none` where it stops. -/
def replacement (image : Image) (part : UdfPartitions) (t : AdType) (ad : LongAd) :
    Option (List LongAd) :=
  if ad.extentType = LongAd.extentAd then
    match readMetadata (faultFree image) part ad () with
    | .ok (some (.allocationExtentDescriptor, buf), _) =>
      if 24 ≤ ad.length.toNat ∧ 24 + leVal buf 20 4 ≤ ad.length.toNat then
        some (adsAt t buf ad.partition (leVal buf 20 4 / t.size) 24)
      else none
    | _ => none
  else none

/-- No continuation descriptor of the file entry is met again while it is being replaced, and the
number of descriptors stays below 2^32. -/
def EntryEnds (image : Image) (part : UdfPartitions) (icb : LongAd) : Prop :=
  ∀ fe t ads, readEntryBlock (faultFree image) part icb () = .ok (some fe, ()) →
    fe.u = .ads t ads → Unfoldable (replacement image part t) (2 ^ 32) ads

section

variable {image : Image} {part : UdfPartitions} {t : AdType} {xs ys : List LongAd} {ad icb : LongAd}
  {fe : FileEntry}

instance : Finite LongAd := by
  have hu32 : Finite UInt32 := Finite.of_injective UInt32.toFin fun a b h => UInt32.toFin_inj.mp h
  have hu16 : Finite UInt16 := Finite.of_injective UInt16.toFin fun a b h => UInt16.toFin_inj.mp h
  have hu8 : Finite UInt8 := Finite.of_injective UInt8.toFin fun a b h => UInt8.toFin_inj.mp h
  refine Finite.of_injective (fun a : LongAd => (a.lba, a.length, a.partition, a.extentType))
    fun a b h => ?_
  obtain ⟨lba, length, partition, extentType⟩ := a
  simp only [Prod.mk.injEq] at h
  rw [h.1, h.2.1, h.2.2.1, h.2.2.2]

/-! ## One turn -/

theorem dropContinuation_last (fe : FileEntry) (t : AdType) (xs : List LongAd) (ad : LongAd) :
    { fe with u := .ads t (xs ++ [ad]) }.dropContinuation =
      if ad.extentType = LongAd.extentAd then some (ad, { fe with u := .ads t xs }) else none := by
  simp [FileEntry.dropContinuation]

/-- An extent is accepted exactly if there is something to put in the place of its pointer. -/
theorem decodeAllocationExtent_replacement {buf : Bytes} (htype : ad.extentType = LongAd.extentAd)
    (hread : readMetadata (faultFree image) part ad () =
      .ok (some (.allocationExtentDescriptor, buf), ()))
    (hlen : xs.length < 2 ^ 32) (fe : FileEntry) :
    decodeAllocationExtent { fe with u := .ads t xs } buf ad.length.toNat ad.partition =
      match replacement image part t ad with
      | none => .ok none
      | some ys =>
        if xs.length + ys.length < 2 ^ 32 then .ok (some { fe with u := .ads t (xs ++ ys) })
        else .error .outOfBounds := by
  obtain ⟨r, _, hret, hbuf⟩ := readMetadata_returns (faultFree image) part ad ()
  rw [hread] at hret
  cases hret
  obtain ⟨hsize, h2048⟩ := hbuf _ _ rfl
  rw [replacement, if_pos htype, hread, decodeAllocationExtent_eq (by omega) hsize rfl hlen]
  by_cases hfit : 24 ≤ ad.length.toNat ∧ 24 + leVal buf 20 4 ≤ ad.length.toNat
  · simp only [hfit, and_self, if_true, adsAt_length]
    by_cases hempty : leVal buf 20 4 / t.size < 1
    · have hzero : leVal buf 20 4 / t.size = 0 := Nat.lt_one_iff.mp hempty
      simp [hzero, adsAt]
      omega
    · rw [if_neg hempty]
  · simp only [hfit, if_false]

/-- The loop is left at a descriptor that nothing is put in the place of. -/
theorem readExtents_stop (hnone : replacement image part t ad = none) (hlen : xs.length < 2 ^ 32)
    (fe : FileEntry) (fuel : Nat) :
    ∃ r zs, readExtents (faultFree image) part (fuel + 1) { fe with u := .ads t (xs ++ [ad]) } () =
      .ok (r, ()) ∧ r.1.u = .ads t zs := by
  rw [readExtents, dropContinuation_last]
  by_cases htype : ad.extentType = LongAd.extentAd
  · obtain ⟨r, _, hread, _⟩ := readMetadata_returns (faultFree image) part ad ()
    rw [if_pos htype]
    simp only
    rw [Proc.bind_of_ok hread]
    cases r with
    | none => exact ⟨_, _, rfl, rfl⟩
    | some b =>
      obtain ⟨tag, buf⟩ := b
      by_cases htag : tag = .allocationExtentDescriptor
      · subst htag
        have hdecode := decodeAllocationExtent_replacement (t := t) htype hread hlen fe
        rw [hnone] at hdecode
        simp only [ne_eq, not_true, if_false, hdecode]
        exact ⟨_, _, rfl, rfl⟩
      · simp only [ne_eq, htag, not_false_iff, if_true]
        exact ⟨_, _, rfl, rfl⟩
  · rw [if_neg htype]
    exact ⟨_, _, rfl, rfl⟩

/-- Only a pointer to an allocation extent is replaced. -/
theorem replacement_some (h : replacement image part t ad = some ys) :
    ad.extentType = LongAd.extentAd ∧ ∃ buf, readMetadata (faultFree image) part ad () =
      .ok (some (.allocationExtentDescriptor, buf), ()) := by
  unfold replacement at h
  split at h
  · refine ⟨‹_›, ?_⟩
    split at h
    · exact ⟨_, ‹_›⟩
    · cases h
  · cases h

theorem readExtents_step (hys : replacement image part t ad = some ys)
    (hlen : xs.length < 2 ^ 32) (fe : FileEntry) (fuel : Nat) :
    readExtents (faultFree image) part (fuel + 1) { fe with u := .ads t (xs ++ [ad]) } () =
      if xs.length + ys.length < 2 ^ 32 then
        readExtents (faultFree image) part fuel { fe with u := .ads t (xs ++ ys) } ()
      else .error .outOfBounds := by
  obtain ⟨htype, buf, hread⟩ := replacement_some hys
  have hdecode := decodeAllocationExtent_replacement (t := t) htype hread hlen fe
  rw [hys] at hdecode
  rw [readExtents, dropContinuation_last, if_pos htype]
  simp only
  rw [Proc.bind_of_ok hread]
  simp only [ne_eq, not_true, if_false, hdecode]
  by_cases hlimit : xs.length + ys.length < 2 ^ 32
  · rw [if_pos hlimit, if_pos hlimit]
    rfl
  · rw [if_neg hlimit, if_neg hlimit]
    rfl

/-! ## The loop -/

theorem readExtents_returns (h : Unfolds (replacement image part t) (2 ^ 32) xs)
    (hlen : xs.length < 2 ^ 32) (fe : FileEntry) :
    ∃ fuel r zs, readExtents (faultFree image) part fuel { fe with u := .ads t xs } () =
      .ok (r, ()) ∧ r.1.u = .ads t zs := by
  induction h with
  | empty => exact ⟨1, _, [], rfl, rfl⟩
  | stop hnone => exact ⟨1, readExtents_stop hnone (by simp at hlen; omega) fe 0⟩
  | step hys hlimit _ ih =>
    obtain ⟨fuel, hrun⟩ := ih (by simpa using hlimit)
    refine ⟨fuel + 1, ?_⟩
    rw [readExtents_step hys (by omega), if_pos hlimit]
    exact hrun

theorem unfolds_of_returns {fuel : Nat} {r : FileEntry × ChainEnd} (hlen : xs.length < 2 ^ 32)
    (h : readExtents (faultFree image) part fuel { fe with u := .ads t xs } () = .ok (r, ())) :
    Unfolds (replacement image part t) (2 ^ 32) xs := by
  induction fuel generalizing xs with
  | zero => cases h
  | succ fuel ih =>
    rcases List.eq_nil_or_concat' xs with rfl | ⟨xs, ad, rfl⟩
    · exact .empty
    · cases hys : replacement image part t ad with
      | none => exact .stop hys
      | some ys =>
        have hxs : xs.length < 2 ^ 32 := by
          simp at hlen
          omega
        rw [readExtents_step hys hxs] at h
        by_cases hlimit : xs.length + ys.length < 2 ^ 32
        · rw [if_pos hlimit] at h
          exact .step hys hlimit (ih (by simpa using hlimit) h)
        · rw [if_neg hlimit] at h
          cases h

/-! ## File entries -/

theorem contentAt_sized {p : Bytes} {partition : UInt16} {pAd lAd flags : Nat} {u : FileContent}
    (hlAd : lAd < 2 ^ 32) (h : contentAt p partition pAd lAd flags = some u) (fe : FileEntry) :
    FileEntry.Sized { fe with u } := by
  have hdiv := fun t : AdType => Nat.div_le_self lAd t.size
  rcases flags with _ | _ | _ | _ | flags
  · cases h
    simp only [FileEntry.Sized, adsAt_length]
    exact Nat.lt_of_le_of_lt (hdiv .short) hlAd
  · cases h
    simp only [FileEntry.Sized, adsAt_length]
    exact Nat.lt_of_le_of_lt (hdiv .long) hlAd
  · cases h
    simp only [FileEntry.Sized, adsAt_length]
    exact Nat.lt_of_le_of_lt (hdiv .extended) hlAd
  · cases h
    simp only [FileEntry.Sized, List.length_take]
    omega
  · cases h

theorem entryAt_sized {p : Bytes} {partition : UInt16} {pAd lAd : Nat} (hlAd : lAd < 2 ^ 32)
    (h : entryAt p partition pAd lAd = some fe) : fe.Sized := by
  unfold entryAt at h
  split at h
  · obtain ⟨u, hu, rfl⟩ := Option.map_eq_some_iff.mp h
    exact contentAt_sized hlAd hu { length := _, fileType := _, u }
  · cases h

theorem readEntryBlock_returns {σ : Type} (I : BlockInput σ) (part : UdfPartitions)
    (icb : LongAd) :
    Proc.Returns (readEntryBlock I part icb) fun r => ∀ fe, r = some fe → fe.Sized := by
  refine (readMetadata_returns I part icb).bind fun r hr => ?_
  cases r with
  | none => exact Proc.returns_pure fun _ h => by cases h
  | some b =>
    obtain ⟨tag, buf⟩ := b
    obtain ⟨-, hbuf⟩ := hr tag buf rfl
    simp only
    split
    · refine (Proc.returns_ofRes (decodeFileEntry_eq hbuf)).mono fun r hr fe hfe => ?_
      rw [hr] at hfe
      split at hfe
      · exact entryAt_sized (leVal_lt buf 172 4) hfe
      · cases hfe
    · split
      · refine (Proc.returns_ofRes (decodeExtFileEntry_eq hbuf)).mono fun r hr fe hfe => ?_
        rw [hr] at hfe
        split at hfe
        · exact entryAt_sized (leVal_lt buf 212 4) hfe
        · cases hfe
      · exact Proc.returns_pure fun _ h => by cases h

/-- Where the chain ends, the loop returns, and inline content has its 32-bit length. -/
theorem readFileEntryChain_returns (h : EntryEnds image part icb) :
    ∃ fuel r, readFileEntryChain (faultFree image) fuel part icb () = .ok (r, ()) ∧
      ∀ fe content, r.map Prod.fst = some fe → fe.u = .data content → content.length < 2 ^ 32 := by
  obtain ⟨r, _, hblock, hsized⟩ := readEntryBlock_returns (faultFree image) part icb ()
  cases r with
  | none =>
    refine ⟨0, none, ?_, fun _ _ h => by cases h⟩
    rw [readFileEntryChain, Proc.bind_of_ok hblock]
    rfl
  | some fe =>
    have hfe : fe.Sized := hsized fe rfl
    unfold FileEntry.Sized at hfe
    cases hu : fe.u with
    | data content =>
      rw [hu] at hfe
      refine ⟨1, some (fe, .complete), ?_, ?_⟩
      · rw [readFileEntryChain, Proc.bind_of_ok hblock]
        simp only [readExtents, FileEntry.dropContinuation, hu]
        rfl
      · intro fe' content' hfe' hu'
        cases hfe'
        rw [hu] at hu'
        cases hu'
        exact hfe
    | ads t ads =>
      rw [hu] at hfe
      have hunfolds := unfolds_iff.mpr (h fe t ads hblock hu)
      obtain ⟨fuel, r, zs, hrun, hzs⟩ := readExtents_returns hunfolds hfe fe
      have hself : { fe with u := .ads t ads } = fe := by rw [← hu]
      rw [hself] at hrun
      refine ⟨fuel, some r, ?_, ?_⟩
      · rw [readFileEntryChain, Proc.bind_of_ok hblock]
        simp only
        rw [Proc.bind_of_ok hrun]
        rfl
      · intro fe' content hfe' hu'
        cases hfe'
        rw [hzs] at hu'
        cases hu'

theorem entryEnds_of_returns {fuel : Nat} {r : Option (FileEntry × ChainEnd)}
    (h : readFileEntryChain (faultFree image) fuel part icb () = .ok (r, ())) :
    EntryEnds image part icb := by
  intro fe t ads hblock hu
  obtain ⟨_, _, hblock', hsized⟩ := readEntryBlock_returns (faultFree image) part icb ()
  rw [hblock] at hblock'
  cases hblock'
  have hfe : fe.Sized := hsized fe rfl
  rw [FileEntry.Sized, hu] at hfe
  rw [readFileEntryChain, Proc.bind_of_ok hblock] at h
  obtain ⟨r', _, hrun, _⟩ := Proc.bind_eq_ok.mp h
  have hself : { fe with u := .ads t ads } = fe := by rw [← hu]
  rw [← hself] at hrun
  exact unfolds_iff.mp (unfolds_of_returns hfe hrun)

/-- The part of `udf_read_dir` behind the file entry always returns. -/
theorem readDirOf_returns {σ : Type} (I : BlockInput σ) (part : UdfPartitions) {fe : FileEntry}
    (hfe : ∀ content, fe.u = .data content → content.length < 2 ^ 32)
    (dir : List UdfFileIdentifier) :
    Proc.Returns (readDirOf I part fe dir) fun _ => True := by
  unfold readDirOf
  split
  · exact Proc.returns_pure trivial
  · split
    · rename_i content hu
      have hlen : (UInt32.ofNat content.length).toNat ≤ content.length := by
        rw [UInt32.toNat_ofNat', Nat.mod_eq_of_lt (hfe content hu)]
      obtain ⟨r, hr⟩ := parseDirFile_ok hlen dir
      exact (Proc.returns_ofRes hr).mono fun _ _ => trivial
    · exact Proc.returns_pure trivial
    · rename_i ad _ _
      refine (readMetadata_returns I part ad).bind fun r hr => ?_
      cases r with
      | none => exact Proc.returns_pure trivial
      | some b =>
        obtain ⟨tag, buf⟩ := b
        obtain ⟨r, hr⟩ := parseDirFile_ok (hr tag buf rfl).1 dir
        exact (Proc.returns_ofRes hr).mono fun _ _ => trivial

/-- Reading a file entry ends, and with it reading a directory and opening a file, exactly if the
chain of allocation extents does. -/
theorem udfReadFileEntry_returns_iff (image : Image) (part : UdfPartitions) (icb : LongAd) :
    ((∃ fuel r, udfReadFileEntry (faultFree image) fuel part icb () = .ok (r, ())) ↔
      EntryEnds image part icb) ∧
    (∀ dir, (∃ fuel r, udfReadDir (faultFree image) fuel part icb dir () = .ok (r, ())) ↔
      EntryEnds image part icb) ∧
    ∀ udf fi, (∃ fuel r, fileOpen (faultFree image) fuel udf fi () = .ok (r, ())) ↔
      fi.characteristic &&& charFlagDir ≠ 0 ∨ EntryEnds image udf.part fi.icb := by
  have hentry : ∀ part icb fuel r,
      udfReadFileEntry (faultFree image) fuel part icb () = .ok (r, ()) →
      EntryEnds image part icb := by
    intro part icb fuel r h
    obtain ⟨_, _, hchain, _⟩ := Proc.bind_eq_ok.mp h
    exact entryEnds_of_returns hchain
  refine ⟨⟨fun ⟨fuel, r, h⟩ => hentry part icb fuel r h, fun h => ?_⟩, fun dir => ⟨?_, fun h => ?_⟩,
    fun udf fi => ?_⟩
  · obtain ⟨fuel, r, hrun, _⟩ := readFileEntryChain_returns h
    exact ⟨fuel, _, Proc.bind_of_ok hrun⟩
  · rintro ⟨fuel, r, h⟩
    obtain ⟨_, _, hread, _⟩ := Proc.bind_eq_ok.mp h
    exact hentry part icb fuel _ hread
  · obtain ⟨fuel, r, hrun, hdata⟩ := readFileEntryChain_returns h
    have hread : udfReadFileEntry (faultFree image) fuel part icb () =
        .ok (r.map Prod.fst, ()) := Proc.bind_of_ok hrun
    refine ⟨fuel, ?_⟩
    rw [udfReadDir, Proc.bind_of_ok hread]
    cases hfe : r.map Prod.fst with
    | none => exact ⟨_, rfl⟩
    | some fe =>
      obtain ⟨r', _, hdir, _⟩ := readDirOf_returns (faultFree image) part
        (fun content => hdata fe content hfe) dir ()
      exact ⟨r', hdir⟩
  · unfold fileOpen
    by_cases hdir : fi.characteristic &&& charFlagDir ≠ 0
    · simp only [if_pos hdir]
      exact ⟨fun _ => .inl hdir, fun _ => ⟨0, none, rfl⟩⟩
    · simp only [if_neg hdir]
      constructor
      · rintro ⟨fuel, r, h⟩
        obtain ⟨_, _, hread, _⟩ := Proc.bind_eq_ok.mp h
        exact .inr (hentry _ _ fuel _ hread)
      · intro h
        obtain ⟨fuel, r, hrun, _⟩ := readFileEntryChain_returns (h.resolve_left hdir)
        have hread : udfReadFileEntry (faultFree image) fuel udf.part fi.icb () =
            .ok (r.map Prod.fst, ()) := Proc.bind_of_ok hrun
        refine ⟨fuel, ?_⟩
        rw [Proc.bind_of_ok hread]
        cases r.map Prod.fst with
        | none => exact ⟨_, rfl⟩
        | some fe => exact ⟨_, rfl⟩

end

/-! ## A pointer to itself -/

/-- An allocation extent whose only descriptor points at block 200. -/
def selfExtent : Nat → UInt8
  | 0 => 2
  | 1 => 1
  | 4 => 3
  | 20 => 8
  | 25 => 8
  | 27 => 192
  | 28 => 200
  | _ => 0

/-- The extent of the file entry in block 16 points at itself. -/
def selfChain : Image := fun lba =>
  if lba = 16 then some twoBlockEntry else if lba = 200 then some selfExtent else none

def selfPlain : LongAd := { lba := 100, length := 2048, partition := 0, extentType := 0 }

def selfAd : LongAd := { lba := 200, length := 2048, partition := 0, extentType := 3 }

def selfEntry : FileEntry where
  length := 4096
  fileType := 5
  u := .ads .short [selfPlain, selfAd]

theorem selfChain_entry :
    readEntryBlock (faultFree selfChain) onePartition twoBlockIcb () =
      .ok (some selfEntry, ()) := by
  decide +kernel

theorem selfChain_replacement :
    replacement selfChain onePartition .short selfAd = some [selfAd] := by
  decide +kernel

theorem selfChain_turns (fuel : Nat) :
    readExtents (faultFree selfChain) onePartition fuel selfEntry () = .error .outOfFuel := by
  induction fuel with
  | zero => rfl
  | succ fuel ih =>
    have hlen : [selfPlain].length < 2 ^ 32 := by decide
    exact (readExtents_step selfChain_replacement hlen selfEntry fuel).trans ih

/-- The loop never ends there: however many turns it takes, there is one more. -/
theorem udfReadFileEntry_diverges :
    (¬ ∃ fuel r, udfReadFileEntry (faultFree selfChain) fuel onePartition twoBlockIcb () =
      .ok (r, ())) ∧
    ∀ fuel, udfReadFileEntry (faultFree selfChain) fuel onePartition twoBlockIcb () =
      .error .outOfFuel := by
  have hfuel : ∀ fuel, udfReadFileEntry (faultFree selfChain) fuel onePartition twoBlockIcb () =
      .error .outOfFuel := by
    intro fuel
    refine Proc.bind_of_error ?_
    rw [readFileEntryChain, Proc.bind_of_ok selfChain_entry]
    exact Proc.bind_of_error (selfChain_turns fuel)
  refine ⟨?_, hfuel⟩
  rintro ⟨fuel, r, h⟩
  rw [hfuel] at h
  cases h

end UdfRead
