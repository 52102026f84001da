import UdfRead.Metadata

/-!
# UdfRead.EntryEncoding

Reading a file entry undoes encoding it: the descriptors come back in order and without the
continuation descriptors, however they are split over the entry and a chain of allocation extents,
as long as they can be counted in 32 bits (`udfReadFileEntry_encoded_iff`).
-/

namespace UdfRead

open CModel

/-! ## Encoded descriptors -/

/-- The descriptor `d` is recorded at index `i`. A short descriptor has the partition of the block
or extent it stands in. -/
structure RecordsAd (t : AdType) (partition : UInt16) (p : Bytes) (i : Nat) (d : LongAd) :
    Prop where
  bound : d.length.toNat < 2 ^ 30
  extent : leVal p i 4 = d.length.toNat + 2 ^ 30 * d.extentType.toNat
  lba : leVal p (i + t.lbaAt) 4 = d.lba.toNat
  partition : t.partitionAt p i partition = d.partition

/-- The descriptors are recorded one behind the other from index `i` on. -/
def RecordsAds (t : AdType) (partition : UInt16) (p : Bytes) : (i : Nat) → List LongAd → Prop
  | _, [] => True
  | i, d :: ds => RecordsAd t partition p i d ∧ RecordsAds t partition p (i + t.size) ds

/-- The two kinds of file entries. -/
inductive EntryKind where
  | fileEntry
  | extFileEntry
  deriving DecidableEq, Repr

namespace EntryKind

def tag : EntryKind → TagIdentifier
  | fileEntry => .fileEntry
  | extFileEntry => .extendedFileEntry

/-- The length of the header. -/
def header : EntryKind → Nat
  | fileEntry => 176
  | extFileEntry => 216

/-- Where the length of the extended attributes stands. -/
def lEaAt : EntryKind → Nat
  | fileEntry => 168
  | extFileEntry => 208

/-- Where the length of the descriptors stands. -/
def lAdAt : EntryKind → Nat
  | fileEntry => 172
  | extFileEntry => 212

end EntryKind

/-- The low bits of the ICB flags. -/
def AdType.code : AdType → Nat
  | short => 0
  | long => 1
  | extended => 2

/-- The block `p` encodes a file entry with the descriptors `ds`. -/
structure RecordsEntry (kind : EntryKind) (t : AdType) (partition : UInt16) (p : Bytes)
    (length : UInt64) (fileType : UInt8) (ds : List LongAd) : Prop where
  block : 2048 ≤ p.length
  tag : tagAt p 0 = kind.tag
  strategy : leVal p 20 2 = 4
  fileType : leVal p 27 1 = fileType.toNat
  flags : leVal p 34 2 % 8 = t.code
  length : leVal p 56 8 = length.toNat
  lAd : leVal p kind.lAdAt 4 = ds.length * t.size
  fits : kind.header + leVal p kind.lEaAt 4 + ds.length * t.size ≤ 2048
  ads : RecordsAds t partition p (kind.header + leVal p kind.lEaAt 4) ds

/-- `buf` encodes an allocation extent with the descriptors `ds`. -/
structure RecordsExtent (t : AdType) (partition : UInt16) (buf : Bytes) (ds : List LongAd) :
    Prop where
  tag : tagAt buf 0 = .allocationExtentDescriptor
  lAd : leVal buf 20 4 = ds.length * t.size
  ads : RecordsAds t partition buf 24 ds

/-- One allocation extent of a chain: the continuation descriptor that points at it, its bytes and
its part of the list. -/
structure Hop where
  loc : LongAd
  buf : Bytes
  part : List LongAd

/-- What stands in front of `hops`: the part itself, and the pointer to the next extent. -/
def recorded (ads : List LongAd) : List Hop → List LongAd
  | [] => ads
  | h :: _ => ads ++ [h.loc]

/-- The whole list. -/
def chainAds (ads : List LongAd) (hops : List Hop) : List LongAd :=
  ads ++ (hops.map Hop.part).flatten

/-- The last part of the list. -/
def lastPart (ads : List LongAd) : List Hop → List LongAd
  | [] => ads
  | h :: rest => lastPart h.part rest

/-- The allocation extents of the chain are there, each with its part and the pointer to the next
one. -/
def RecordsChain {σ : Type} (I : BlockInput σ) (part : UdfPartitions) (t : AdType) :
    List Hop → Prop
  | [] => True
  | h :: rest =>
    (h.loc.extentType = LongAd.extentAd ∧
      Placed I part h.loc h.buf ∧
      RecordsExtent t h.loc.partition h.buf (recorded h.part rest) ∧
      24 + (recorded h.part rest).length * t.size ≤ h.loc.length.toNat) ∧
    RecordsChain I part t rest

/-- The descriptors of the list are no continuation descriptors. -/
def Plain (ads : List LongAd) : Prop := ∀ d ∈ ads, d.extentType ≠ LongAd.extentAd

/-! ## Decoding -/

section

variable {t : AdType} {partition : UInt16} {p : Bytes} {i : Nat} {ds ads done : List LongAd}
  {d : LongAd}

theorem adAt_recorded (h : RecordsAd t partition p i d) : adAt t p partition i = d := by
  have hbound := h.bound
  have hmod : (d.length.toNat + 2 ^ 30 * d.extentType.toNat) % 2 ^ 30 = d.length.toNat := by omega
  have hdiv : (d.length.toNat + 2 ^ 30 * d.extentType.toNat) / 2 ^ 30 = d.extentType.toNat := by
    omega
  rw [adAt, h.extent, h.lba, h.partition, hmod, hdiv, UInt32.ofNat_toNat, UInt32.ofNat_toNat,
    UInt8.ofNat_toNat]

theorem adsAt_recorded (h : RecordsAds t partition p i ds) :
    adsAt t p partition ds.length i = ds := by
  induction ds generalizing i with
  | nil => rfl
  | cons d ds ih => rw [List.length_cons, adsAt, adAt_recorded h.1, ih h.2]

theorem contentAt_code (pAd lAd : Nat) :
    contentAt p partition pAd lAd t.code =
      some (.ads t (adsAt t p partition (lAd / t.size) pAd)) := by
  cases t <;> rfl

theorem entryAt_recorded {kind : EntryKind} {length : UInt64} {fileType : UInt8}
    (h : RecordsEntry kind t partition p length fileType ds) :
    entryAt p partition (kind.header + leVal p kind.lEaAt 4) (leVal p kind.lAdAt 4) =
      some { length, fileType, u := .ads t ds } := by
  have hsize := t.size_pos
  rw [entryAt, if_pos h.strategy, h.flags, contentAt_code, h.lAd,
    Nat.mul_div_cancel _ (show 0 < t.size by omega), adsAt_recorded h.ads, h.length, h.fileType,
    UInt64.ofNat_toNat, UInt8.ofNat_toNat]
  rfl

variable {σ : Type} {I : BlockInput σ} {part : UdfPartitions}

theorem readEntryBlock_recorded {kind : EntryKind} {length : UInt64} {fileType : UInt8}
    {icb : LongAd} (hplaced : Placed I part icb p)
    (h : RecordsEntry kind t icb.partition p length fileType ds) :
    Proc.Returns (readEntryBlock I part icb) fun r =>
      r = some { length, fileType, u := .ads t ds } := by
  have hfits := h.fits
  have htag : tagAt p 0 ≠ .invalid := by
    rw [h.tag]
    cases kind <;> decide
  have hentry := entryAt_recorded h
  refine (readMetadata_placed hplaced htag).bind fun r hr => ?_
  subst hr
  simp only [h.tag]
  rw [← h.lAd] at hfits
  cases kind with
  | fileEntry =>
    refine (Proc.returns_ofRes (decodeFileEntry_eq h.block)).mono fun r hr => ?_
    rw [hr]
    exact (if_pos hfits).trans hentry
  | extFileEntry =>
    refine (Proc.returns_ofRes (decodeExtFileEntry_eq h.block)).mono fun r hr => ?_
    rw [hr]
    exact (if_pos hfits).trans hentry

/-! ## The chain -/

theorem dropContinuation_plain {fe : FileEntry} (hu : fe.u = .ads t ads) (h : Plain ads) :
    fe.dropContinuation = none := by
  unfold FileEntry.dropContinuation
  rw [hu]
  simp only
  cases hlast : ads.getLast? with
  | none => rfl
  | some d => simp only [h d (List.mem_of_getLast? hlast), if_false]

theorem dropContinuation_pointer {fe : FileEntry} {loc : LongAd}
    (hu : fe.u = .ads t (ads ++ [loc])) (h : loc.extentType = LongAd.extentAd) :
    fe.dropContinuation = some (loc, { fe with u := .ads t ads }) := by
  unfold FileEntry.dropContinuation
  rw [hu]
  simp [h]

/-- One turn of the loop of `udf_read_file_entry`: the extent's descriptors take the place of its
pointer, or they are too many. -/
theorem readExtents_hop {h : Hop} {rest : List Hop} {fe : FileEntry}
    (hchain : RecordsChain I part t (h :: rest)) (hu : fe.u = .ads t (ads ++ [h.loc]))
    (hcount : ads.length < 2 ^ 32) (fuel : Nat) (s : σ) :
    ∃ s', readExtents I part (fuel + 1) fe s =
      if (recorded h.part rest).length < 1 then
        readExtents I part fuel { fe with u := .ads t ads } s'
      else if ads.length + (recorded h.part rest).length < 2 ^ 32 then
        readExtents I part fuel { fe with u := .ads t (ads ++ recorded h.part rest) } s'
      else .error .outOfBounds := by
  obtain ⟨⟨htype, hplaced, hext, hfit⟩, -⟩ := hchain
  have hsize := t.size_pos
  have hlen := hplaced.length
  have htag : tagAt h.buf 0 ≠ .invalid := by
    rw [hext.tag]
    decide
  obtain ⟨r, s', hread, hr⟩ := readMetadata_placed hplaced htag s
  refine ⟨s', ?_⟩
  rw [readExtents, dropContinuation_pointer hu htype]
  simp only
  rw [Proc.bind_of_ok hread, hr]
  simp only [hext.tag, ne_eq, not_true, if_false]
  rw [decodeAllocationExtent_eq (by omega) (by omega) rfl hcount, hext.lAd, if_pos (by omega),
    Nat.mul_div_cancel _ (show 0 < t.size by omega), adsAt_recorded hext.ads]
  by_cases hempty : (recorded h.part rest).length < 1
  · rw [if_pos hempty, if_pos hempty]
    rfl
  · rw [if_neg hempty, if_neg hempty]
    by_cases hroom : ads.length + (recorded h.part rest).length < 2 ^ 32
    · rw [if_pos hroom, if_pos hroom]
      rfl
    · rw [if_neg hroom, if_neg hroom]
      rfl

theorem chainAds_cons (h : Hop) (rest : List Hop) :
    chainAds ads (h :: rest) = ads ++ chainAds h.part rest := by
  simp [chainAds]

theorem plain_left (h : Plain (ads ++ ds)) : Plain ads :=
  fun d hd => h d (List.mem_append_left _ hd)

theorem chainAds_length (ads : List LongAd) (hops : List Hop) :
    (lastPart ads hops).length ≤ (chainAds ads hops).length := by
  induction hops generalizing ads with
  | nil => simp [lastPart, chainAds]
  | cons h rest ih =>
    rw [lastPart, chainAds_cons, List.length_append]
    have := ih h.part
    omega

/-- The pointer to an empty last extent is counted although it is not in the list. -/
def endPointer (ads : List LongAd) (hops : List Hop) : Nat :=
  if hops ≠ [] ∧ lastPart ads hops = [] then 1 else 0

/-- What is decoded at once is not more than what is counted in the end. -/
theorem recorded_length_le (ads : List LongAd) (hops : List Hop) :
    (recorded ads hops).length ≤ (chainAds ads hops).length + endPointer ads hops := by
  cases hops with
  | nil => simp [recorded, chainAds]
  | cons h rest =>
    have hlast : lastPart ads (h :: rest) = lastPart h.part rest := rfl
    have hle := chainAds_length h.part rest
    rw [endPointer, chainAds_cons, hlast, recorded, List.length_append, List.length_append,
      List.length_singleton]
    split
    · omega
    · rename_i hne
      have hpos := List.length_pos_iff.mpr fun hc => hne ⟨by simp, hc⟩
      omega

/-- The loop follows the chain to its end, or finds more descriptors than it can count. `done` are
the descriptors of the extents before. -/
theorem readExtents_recorded {hops : List Hop} {fe : FileEntry}
    (hchain : RecordsChain I part t hops) (hu : fe.u = .ads t (done ++ recorded ads hops))
    (hplain : Plain (done ++ chainAds ads hops))
    (hcount : (done ++ recorded ads hops).length < 2 ^ 32) :
    if done.length + (chainAds ads hops).length + endPointer ads hops < 2 ^ 32 then
      Proc.Returns (readExtents I part (hops.length + 1) fe) fun r =>
        r = ({ fe with u := .ads t (done ++ chainAds ads hops) }, .complete)
    else ∀ fuel s r, readExtents I part fuel fe s ≠ .ok r := by
  induction hops generalizing done ads fe with
  | nil =>
    have hend : chainAds ads [] = ads := by simp [chainAds]
    have hdone : recorded ads [] = ads := rfl
    rw [hdone] at hu hcount
    rw [hend] at hplain ⊢
    rw [List.length_append] at hcount
    rw [if_pos (by simp [endPointer]; omega), List.length_nil, readExtents,
      dropContinuation_plain hu hplain, ← hu]
    exact Proc.returns_pure rfl
  | cons h rest ih =>
    have hrec : recorded ads (h :: rest) = ads ++ [h.loc] := rfl
    rw [hrec, ← List.append_assoc] at hu hcount
    rw [List.length_append, List.length_append] at hcount
    simp at hcount
    have hturn := readExtents_hop hchain hu (by rw [List.length_append]; omega)
    rw [chainAds_cons, ← List.append_assoc] at hplain ⊢
    rw [List.length_append]
    by_cases hempty : (recorded h.part rest).length < 1
    · -- an empty last extent
      have hrest : rest = [] ∧ h.part = [] := by
        cases rest with
        | nil => exact ⟨rfl, List.eq_nil_of_length_eq_zero (by simpa [recorded] using hempty)⟩
        | cons h' rest => simp [recorded] at hempty
      obtain ⟨rfl, hpart⟩ := hrest
      have hnone : chainAds h.part [] = [] := by simp [chainAds, hpart]
      rw [hnone] at hplain ⊢
      have hone : endPointer ads [h] ≤ 1 := by
        unfold endPointer
        split <;> omega
      rw [if_pos (by simp; omega)]
      intro s
      obtain ⟨s', hs⟩ := hturn 1 s
      refine ⟨_, s', ?_, rfl⟩
      rw [List.length_cons, List.length_nil, hs, if_pos hempty, readExtents,
        dropContinuation_plain rfl (plain_left hplain), List.append_nil]
      rfl
    · have hend : endPointer ads (h :: rest) = endPointer h.part rest := by
        have hflag : (h :: rest ≠ [] ∧ lastPart h.part rest = []) ↔
            (rest ≠ [] ∧ lastPart h.part rest = []) := by
          refine ⟨fun hc => ⟨?_, hc.2⟩, fun hc => ⟨by simp, hc.2⟩⟩
          rintro rfl
          exact hempty (by rw [recorded, show h.part = [] from hc.2]; simp)
        unfold endPointer
        simp only [lastPart, hflag]
      rw [hend]
      by_cases hroom : (done ++ ads).length + (recorded h.part rest).length < 2 ^ 32
      · have hads : ({ fe with u := .ads t ((done ++ ads) ++ recorded h.part rest) } : FileEntry).u =
            .ads t ((done ++ ads) ++ recorded h.part rest) := rfl
        have hnext := ih hchain.2 hads hplain (by rw [List.length_append]; exact hroom)
        rw [List.length_append] at hnext hroom
        rw [← Nat.add_assoc]
        by_cases hc : done.length + ads.length + (chainAds h.part rest).length +
            endPointer h.part rest < 2 ^ 32
        · rw [if_pos hc] at hnext ⊢
          intro s
          obtain ⟨s', hs⟩ := hturn (rest.length + 1) s
          rw [List.length_cons, hs, if_neg hempty, List.length_append, if_pos hroom]
          exact hnext s'
        · rw [if_neg hc] at hnext ⊢
          intro fuel s r
          cases fuel with
          | zero => exact nofun
          | succ fuel =>
            obtain ⟨s', hs⟩ := hturn fuel s
            rw [hs, if_neg hempty, List.length_append, if_pos hroom]
            exact hnext fuel s' r
      · have hle := recorded_length_le h.part rest
        rw [List.length_append] at hroom
        rw [if_neg (by omega)]
        intro fuel s r
        cases fuel with
        | zero => exact nofun
        | succ fuel =>
          obtain ⟨s', hs⟩ := hturn fuel s
          rw [hs, if_neg hempty, List.length_append, if_neg hroom]
          exact nofun

/-- The descriptors can be counted in 32 bits: all of the list and, when the last part is an empty
extent, the pointer to it. -/
def Counted (ads : List LongAd) (hops : List Hop) : Prop :=
  (chainAds ads hops).length + endPointer ads hops < 2 ^ 32

instance (ads : List LongAd) (hops : List Hop) : Decidable (Counted ads hops) :=
  inferInstanceAs (Decidable (_ < _))

theorem readExtents_entry {kind : EntryKind} {length : UInt64} {fileType : UInt8}
    {icb : LongAd} {hops : List Hop}
    (hentry : RecordsEntry kind t icb.partition p length fileType (recorded ads hops))
    (hchain : RecordsChain I part t hops) (hplain : Plain (chainAds ads hops)) :
    if Counted ads hops then
      Proc.Returns (readExtents I part (hops.length + 1)
        { length, fileType, u := .ads t (recorded ads hops) }) fun r =>
          r = ({ length, fileType, u := .ads t (chainAds ads hops) }, .complete)
    else ∀ fuel s r, readExtents I part fuel
      { length, fileType, u := .ads t (recorded ads hops) } s ≠ .ok r := by
  have hfits := hentry.fits
  have hmul := Nat.mul_le_mul_left (recorded ads hops).length t.size_pos
  have hads : ({ length, fileType, u := .ads t (recorded ads hops) } : FileEntry).u =
      .ads t ([] ++ recorded ads hops) := rfl
  have hext := readExtents_recorded hchain hads hplain (by rw [List.nil_append]; omega)
  rwa [List.length_nil, Nat.zero_add] at hext

section

variable {kind : EntryKind} {length : UInt64} {fileType : UInt8} {icb : LongAd} {hops : List Hop}

theorem udfReadFileEntry_counted (hplaced : Placed I part icb p)
    (hentry : RecordsEntry kind t icb.partition p length fileType (recorded ads hops))
    (hchain : RecordsChain I part t hops) (hplain : Plain (chainAds ads hops))
    (hc : Counted ads hops) (s : σ) :
    ∃ fuel s', udfReadFileEntry I fuel part icb s =
      .ok (some { length, fileType, u := .ads t (chainAds ads hops) }, s') := by
  obtain ⟨r, s₁, hblock, hr⟩ := readEntryBlock_recorded hplaced hentry s
  subst hr
  have hext := readExtents_entry hentry hchain hplain
  rw [if_pos hc] at hext
  obtain ⟨r, s₂, hrun, hr⟩ := hext s₁
  subst hr
  have hread : readFileEntryChain I (hops.length + 1) part icb s =
      .ok (some ({ length, fileType, u := .ads t (chainAds ads hops) }, .complete), s₂) := by
    rw [readFileEntryChain, Proc.bind_of_ok hblock]
    exact Proc.bind_of_ok hrun
  exact ⟨hops.length + 1, s₂, Proc.bind_of_ok hread⟩

theorem udfReadFileEntry_uncounted (hplaced : Placed I part icb p)
    (hentry : RecordsEntry kind t icb.partition p length fileType (recorded ads hops))
    (hchain : RecordsChain I part t hops) (hplain : Plain (chainAds ads hops))
    (hc : ¬ Counted ads hops) (fuel : Nat) (s : σ) (r : Option FileEntry × σ) :
    udfReadFileEntry I fuel part icb s ≠ .ok r := by
  intro hread
  obtain ⟨r, s₁, hblock, hr⟩ := readEntryBlock_recorded hplaced hentry s
  subst hr
  have hext := readExtents_entry hentry hchain hplain
  rw [if_neg hc] at hext
  obtain ⟨m, s₂, hm, -⟩ := Proc.bind_eq_ok.mp hread
  rw [readFileEntryChain, Proc.bind_of_ok hblock] at hm
  obtain ⟨r, s₃, hr, -⟩ := Proc.bind_eq_ok.mp hm
  exact hext fuel s₁ _ hr

/-- The encoded file entry is read back exactly if its descriptors can be counted. -/
theorem udfReadFileEntry_encoded_iff (hplaced : Placed I part icb p)
    (hentry : RecordsEntry kind t icb.partition p length fileType (recorded ads hops))
    (hchain : RecordsChain I part t hops) (hplain : Plain (chainAds ads hops)) (s : σ) :
    (∃ fuel s', udfReadFileEntry I fuel part icb s =
      .ok (some { length, fileType, u := .ads t (chainAds ads hops) }, s')) ↔
      Counted ads hops := by
  constructor
  · rintro ⟨fuel, s', hread⟩
    by_contra hc
    exact udfReadFileEntry_uncounted hplaced hentry hchain hplain hc fuel s _ hread
  · exact fun hc => udfReadFileEntry_counted hplaced hentry hchain hplain hc s

end

end

/-! ## One extent -/

/-- The bytes of the `n` blocks from `lba` on. -/
@[irreducible] def spanBytes (media : Media) (lba : UInt32) (n : Nat) : Bytes :=
  List.ofFn fun k : Fin (2048 * n) => media (lba + UInt32.ofNat (k / 2048)) (k % 2048)

section

variable {media : Media} {lba : UInt32} {n x : Nat}

theorem spanBytes_length : (spanBytes media lba n).length = 2048 * n := by
  rw [spanBytes, List.length_ofFn]

theorem spanBytes_getD (h : x < 2048 * n) :
    (spanBytes media lba n).getD x 0 = media (lba + UInt32.ofNat (x / 2048)) (x % 2048) := by
  rw [List.getD_eq_getElem?_getD, spanBytes, List.getElem?_ofFn, dif_pos h]
  rfl

theorem spanBytes_block {k : Nat} (h : k < n) :
    ((spanBytes media lba n).drop (2048 * k)).take 2048 =
      blockBytes (media (lba + UInt32.ofNat k)) := by
  apply List.ext_getElem
  · rw [List.length_take, List.length_drop, spanBytes_length, blockBytes_length]
    omega
  · intro o ho ho'
    rw [blockBytes_length] at ho'
    simp only [List.getElem_take, List.getElem_drop, spanBytes, blockBytes, List.getElem_ofFn]
    rw [show (2048 * k + o) / 2048 = k by omega, show (2048 * k + o) % 2048 = o by omega]

/-- On an image without unreadable blocks everything is placed. -/
theorem placed_span {part : UdfPartitions} {p : Partition} {loc : LongAd}
    (hp : partitionOf part loc.partition = some p) (hlba : p.lba + loc.lba = lba)
    (hone : 1 ≤ loc.length.toNat) (hbound : loc.length.toNat < 2 ^ 30)
    (hn : n = (loc.length.toNat + 2047) / 2048) :
    Placed (.ofImage (fun lba => some (media lba)) none) part loc (spanBytes media lba n) := by
  refine ⟨hone, hbound, by rw [spanBytes_length, hn], p, hp, ?_⟩
  intro k hk s
  rw [spanBytes_length] at hk
  refine ⟨_, _, readBlock_ofImage _, ?_⟩
  rw [hlba, spanBytes_block (by omega)]
  rfl

end

def smallChain : Media := fun lba => if lba = 16 then twoBlockEntry else oneAdExtent

def recordedAd : LongAd := { lba := 100, length := 2048, partition := 0, extentType := 0 }

/-- A sparse extent of no length. -/
def zeroAd : LongAd := { lba := 0, length := 0, partition := 0, extentType := 0 }

def smallHop : Hop where
  loc := { lba := 200, length := 2048, partition := 0, extentType := 3 }
  buf := spanBytes smallChain 200 1
  part := [zeroAd]

theorem smallChain_recorded :
    RecordsEntry .fileEntry .short 0 (spanBytes smallChain 16 1) 4096 5
      (recorded [recordedAd] [smallHop]) ∧
    RecordsExtent .short 0 smallHop.buf smallHop.part := by
  refine ⟨⟨?_, ?_, ?_, ?_, ?_, ?_, ?_, ?_, ⟨?_, ?_, ?_, ?_⟩, ⟨?_, ?_, ?_, ?_⟩, trivial⟩,
    ⟨?_, ?_, ⟨?_, ?_, ?_, ?_⟩, trivial⟩⟩ <;> decide +kernel

theorem udfReadFileEntry_encoded_iff_small :
    (∃ fuel s', udfReadFileEntry (.ofImage (fun lba => some (smallChain lba)) none) fuel onePartition
      twoBlockIcb () = .ok (some (FileEntry.mk 4096 5
        (.ads .short (chainAds [recordedAd] [smallHop]))), s')) ↔
      Counted [recordedAd] [smallHop] := by
  have hplaced : Placed (.ofImage (fun lba => some (smallChain lba)) none) onePartition twoBlockIcb
      (spanBytes smallChain 16 1) := placed_span rfl rfl (by decide) (by decide) (by decide)
  have hhop : Placed (.ofImage (fun lba => some (smallChain lba)) none) onePartition smallHop.loc
      (spanBytes smallChain 200 1) := placed_span rfl rfl (by decide) (by decide) (by decide)
  have hfit : 24 + (recorded smallHop.part []).length * AdType.short.size ≤
      smallHop.loc.length.toNat := by decide
  have hchain : RecordsChain (.ofImage (fun lba => some (smallChain lba)) none) onePartition .short
      [smallHop] := ⟨⟨rfl, hhop, smallChain_recorded.2, hfit⟩, trivial⟩
  have hplain : Plain (chainAds [recordedAd] [smallHop]) := by
    unfold Plain
    decide
  exact udfReadFileEntry_encoded_iff hplaced smallChain_recorded.1 hchain hplain ()

/-! ## A chain of more than 2^32 descriptors -/

/-- A file entry whose only descriptor points at block 524288. -/
def longEntry : Nat → UInt8
  | 0 => 5
  | 1 => 1
  | 4 => 6
  | 20 => 4
  | 27 => 5
  | 172 => 8
  | 176 => 248
  | 177 => 255
  | 178 => 255
  | 179 => 255
  | 182 => 8
  | _ => 0

/-- The start of an extent of 134217724 short descriptors. -/
def longHeader : Nat → UInt8
  | 0 => 2
  | 1 => 1
  | 4 => 3
  | 20 => 224
  | 21 => 255
  | 22 => 255
  | 23 => 63
  | _ => 0

/-- The end of such an extent: a pointer to the next one. -/
def longPointer (next : UInt32) : Nat → UInt8
  | 2032 => 248
  | 2033 => 255
  | 2034 => 255
  | 2035 => 255
  | 2036 => UInt8.ofNat next.toNat
  | 2037 => UInt8.ofNat (next.toNat / 256)
  | 2038 => UInt8.ofNat (next.toNat / 256 / 256)
  | 2039 => UInt8.ofNat (next.toNat / 256 / 256 / 256)
  | _ => 0

/-- Thirty-three extents of 524288 blocks each. -/
def longChain : Media := fun lba =>
  if lba = 16 then longEntry
  else if lba.toNat % 524288 = 0 then longHeader
  else if lba.toNat % 524288 = 524287 ∧ lba.toNat < 33 * 524288 then longPointer (lba + 1)
  else fun _ => 0

/-- The extent that `k` extents follow. -/
def longHop (k : Nat) : Hop where
  loc :=
    { lba := UInt32.ofNat ((33 - k) * 524288), length := 1073741816, partition := 0, extentType := 3 }
  buf := spanBytes longChain (UInt32.ofNat ((33 - k) * 524288)) 524288
  part := List.replicate (if k = 0 then 134217724 else 134217723) zeroAd

/-- The last `k` extents. -/
def longHops : Nat → List Hop
  | 0 => []
  | k + 1 => longHop k :: longHops k

section

variable {k x : Nat}

theorem longHeader_zero (h : 24 ≤ x) : longHeader x = 0 := by
  unfold longHeader
  split <;> first | omega | rfl

theorem longPointer_zero (next : UInt32) (h : x < 2032) : longPointer next x = 0 := by
  unfold longPointer
  split <;> first | omega | rfl

/-- Byte `x` of an extent. -/
theorem longHop_getD (hk : k ≤ 32) (hx : x < 1073741824) :
    (longHop k).buf.getD x 0 =
      if x / 2048 = 0 then longHeader (x % 2048)
      else if x / 2048 = 524287 ∧ 1 ≤ k then
        longPointer (UInt32.ofNat ((34 - k) * 524288)) (x % 2048)
      else 0 := by
  obtain ⟨b, hb⟩ : ∃ b, x / 2048 = b := ⟨_, rfl⟩
  have hb' : b < 524288 := by omega
  have hlba : UInt32.ofNat ((33 - k) * 524288) + UInt32.ofNat b =
      UInt32.ofNat ((33 - k) * 524288 + b) := (UInt32.ofNat_add _ _).symm
  have hval : (UInt32.ofNat ((33 - k) * 524288 + b)).toNat = (33 - k) * 524288 + b := by
    rw [UInt32.toNat_ofNat', Nat.mod_eq_of_lt (by omega)]
  have hne : UInt32.ofNat ((33 - k) * 524288 + b) ≠ 16 := by
    intro hc
    rw [hc] at hval
    have : (16 : UInt32).toNat = 16 := rfl
    omega
  have hmod : ((33 - k) * 524288 + b) % 524288 = b := by omega
  show (spanBytes _ _ _).getD x 0 = _
  rw [spanBytes_getD (by omega), hb, hlba, longChain, if_neg hne, hval, hmod]
  by_cases h0 : b = 0
  · rw [if_pos h0, if_pos h0]
  · rw [if_neg h0, if_neg h0]
    by_cases hlast : b = 524287 ∧ 1 ≤ k
    · rw [if_pos hlast, if_pos (by omega), ← UInt32.ofNat_one, ← UInt32.ofNat_add,
        show (33 - k) * 524288 + b + 1 = (34 - k) * 524288 by omega]
    · rw [if_neg hlast, if_neg (by omega)]

theorem leVal_zero {p : Bytes} {i w : Nat} (h : ∀ j, j < w → p.getD (i + j) 0 = 0) :
    leVal p i w = 0 := by
  induction w generalizing i with
  | zero => rfl
  | succ w ih =>
    have h0 := h 0 (by omega)
    rw [Nat.add_zero] at h0
    rw [leVal, h0, ih fun j hj => by rw [show i + 1 + j = i + (j + 1) by omega, h _ (by omega)]]
    rfl

theorem recordsAds_replicate {p : Bytes} {i n : Nat}
    (h : ∀ x, i ≤ x → x < i + n * 8 → p.getD x 0 = 0) :
    RecordsAds .short 0 p i (List.replicate n zeroAd) := by
  induction n generalizing i with
  | zero => trivial
  | succ n ih =>
    rw [List.replicate_succ]
    refine ⟨⟨by decide, ?_, ?_, rfl⟩, ih fun x hx hx' => h x ?_ ?_⟩
    · exact leVal_zero fun j hj => h _ (by omega) (by omega)
    · exact leVal_zero fun j hj => h _ (by simp [AdType.lbaAt]; omega) (by simp [AdType.lbaAt]; omega)
    · simp [AdType.size] at hx
      omega
    · simp [AdType.size] at hx'
      omega

theorem recordsAds_append {t : AdType} {partition : UInt16} {p : Bytes} {i : Nat}
    {ds es : List LongAd} (hd : RecordsAds t partition p i ds)
    (he : RecordsAds t partition p (i + ds.length * t.size) es) :
    RecordsAds t partition p i (ds ++ es) := by
  induction ds generalizing i with
  | nil => simpa using he
  | cons d ds ih =>
    refine ⟨hd.1, ih hd.2 ?_⟩
    rwa [List.length_cons, Nat.succ_mul, Nat.add_comm _ t.size, ← Nat.add_assoc] at he

theorem longHop_start (hk : k ≤ 32) : Agrees (longHop k).buf 0 (blockBytes longHeader) 2048 := by
  intro x hx
  rw [Nat.zero_add, longHop_getD hk (by omega), if_pos (by omega), blockBytes_getD hx,
    Nat.mod_eq_of_lt hx]

theorem longHop_end (hk : k + 1 ≤ 32) :
    Agrees (longHop (k + 1)).buf 1073739776 (blockBytes (longPointer (longHop k).loc.lba)) 2048 := by
  intro x hx
  rw [longHop_getD hk (by omega), if_neg (by omega), if_pos (by omega), blockBytes_getD hx,
    show (1073739776 + x) % 2048 = x by omega, show 34 - (k + 1) = 33 - k by omega]
  rfl

theorem longHop_middle (hk : k ≤ 32) (hx : 24 ≤ x)
    (hx' : x < if k = 0 then 1073741816 else 1073741808) : (longHop k).buf.getD x 0 = 0 := by
  have hlt : x < 1073741816 := by
    split at hx' <;> omega
  rw [longHop_getD hk (by omega)]
  by_cases h0 : x / 2048 = 0
  · rw [if_pos h0, longHeader_zero (by omega)]
  · rw [if_neg h0]
    by_cases hlast : x / 2048 = 524287 ∧ 1 ≤ k
    · rw [if_neg (by omega)] at hx'
      rw [if_pos hlast, longPointer_zero _ (by omega)]
    · rw [if_neg hlast]

theorem longHop_pointer (hk : k + 1 ≤ 32) :
    RecordsAd .short 0 (longHop (k + 1)).buf 1073741808 (longHop k).loc := by
  have hlba := (longHop k).loc.lba.toNat_lt
  have hagree := longHop_end hk
  refine ⟨show (1073741816 : UInt32).toNat < 2 ^ 30 by decide, ?_, ?_, rfl⟩
  · rw [hagree.leVal (i := 2032) (w := 4) (by omega)]
    simp (disch := omega) only [leVal, blockBytes_getD, longPointer]
    show _ = (1073741816 : UInt32).toNat + 2 ^ 30 * (3 : UInt8).toNat
    decide
  · show leVal _ (1073739776 + 2036) 4 = _
    rw [hagree.leVal (i := 2036) (w := 4) (by omega)]
    simp (disch := omega) only [leVal, blockBytes_getD, longPointer, UInt8.toNat_ofNat']
    omega

theorem longHop_lAd (hk : k ≤ 32) : leVal (longHop k).buf 20 4 = 134217724 * 8 := by
  have hstart := (longHop_start hk).leVal (i := 20) (w := 4) (by omega)
  rw [Nat.zero_add] at hstart
  rw [hstart]
  decide +kernel

theorem longHop_extent (hk : k ≤ 32) :
    RecordsExtent .short 0 (longHop k).buf (recorded (longHop k).part (longHops k)) := by
  have htag : tagAt (longHop k).buf 0 = .allocationExtentDescriptor := by
    rw [agrees_tag (longHop_start hk) (by omega)]
    decide +kernel
  have hlAd := longHop_lAd hk
  cases k with
  | zero =>
    have hads : recorded (longHop 0).part (longHops 0) = List.replicate 134217724 zeroAd := rfl
    rw [hads]
    refine ⟨htag, ?_, recordsAds_replicate fun x hx hx' => longHop_middle hk hx ?_⟩
    · rw [hlAd, List.length_replicate, AdType.size]
    · rw [if_pos rfl]
      omega
  | succ k =>
    have hads : recorded (longHop (k + 1)).part (longHops (k + 1)) =
        List.replicate 134217723 zeroAd ++ [(longHop k).loc] := rfl
    rw [hads]
    refine ⟨htag, ?_, recordsAds_append (recordsAds_replicate fun x hx hx' =>
      longHop_middle hk hx ?_) ?_⟩
    · rw [hlAd, List.length_append, List.length_replicate, List.length_singleton, AdType.size]
    · rw [if_neg (by omega)]
      omega
    · rw [List.length_replicate]
      exact ⟨longHop_pointer hk, trivial⟩

theorem longHops_recorded (hk : k ≤ 33) :
    RecordsChain (.ofImage (fun lba => some (longChain lba)) none) onePartition .short
      (longHops k) := by
  induction k with
  | zero => trivial
  | succ k ih =>
    have hplaced : Placed (.ofImage (fun lba => some (longChain lba)) none) onePartition
        (longHop k).loc (longHop k).buf :=
      placed_span rfl (UInt32.zero_add _) (show 1 ≤ (1073741816 : UInt32).toNat by decide)
        (show (1073741816 : UInt32).toNat < 2 ^ 30 by decide)
        (show 524288 = ((1073741816 : UInt32).toNat + 2047) / 2048 by decide)
    have hext := longHop_extent (show k ≤ 32 by omega)
    refine ⟨⟨rfl, hplaced, hext, ?_⟩, ih (by omega)⟩
    rw [← hext.lAd, longHop_lAd (by omega)]
    show _ ≤ (1073741816 : UInt32).toNat
    decide

/-- The list: descriptors without length. -/
theorem longHops_ads : chainAds [] (longHops (k + 1)) =
    List.replicate (134217724 + k * 134217723) zeroAd := by
  have hcons : ∀ k, chainAds [] (longHops (k + 1)) =
      List.replicate (if k = 0 then 134217724 else 134217723) zeroAd ++ chainAds [] (longHops k) := by
    intro k
    rw [longHops, chainAds_cons, List.nil_append, chainAds, chainAds, longHop, List.nil_append]
  induction k with
  | zero =>
    rw [hcons, if_pos rfl, show chainAds [] (longHops 0) = [] from rfl, List.append_nil,
      Nat.zero_mul, Nat.add_zero]
  | succ k ih =>
    rw [hcons, if_neg (by omega), ih, List.replicate_append_replicate]
    exact congrArg (List.replicate · zeroAd) (by omega)

theorem longEntry_recorded :
    RecordsEntry .fileEntry .short 0 (spanBytes longChain 16 1) 0 5
      (recorded [] (longHops 33)) := by
  refine ⟨?_, ?_, ?_, ?_, ?_, ?_, ?_, ?_, ⟨?_, ?_, ?_, ?_⟩, trivial⟩ <;> decide +kernel

end

/-- The chain of 4429184860 descriptors is encoded as it should be, and is never read back. -/
theorem longChain_overrun :
    Placed (.ofImage (fun lba => some (longChain lba)) none) onePartition twoBlockIcb
      (spanBytes longChain 16 1) ∧
    RecordsEntry .fileEntry .short 0 (spanBytes longChain 16 1) 0 5 (recorded [] (longHops 33)) ∧
    RecordsChain (.ofImage (fun lba => some (longChain lba)) none) onePartition .short
      (longHops 33) ∧
    chainAds [] (longHops 33) = List.replicate 4429184860 zeroAd ∧
    ¬ ∃ fuel r, udfReadFileEntry (.ofImage (fun lba => some (longChain lba)) none) fuel onePartition
      twoBlockIcb () = .ok r := by
  have hads : chainAds [] (longHops 33) = List.replicate 4429184860 zeroAd := longHops_ads
  have hplaced : Placed (.ofImage (fun lba => some (longChain lba)) none) onePartition twoBlockIcb
      (spanBytes longChain 16 1) := placed_span rfl rfl (by decide) (by decide) (by decide)
  have hchain := longHops_recorded (k := 33) (by omega)
  have hplain : Plain (chainAds [] (longHops 33)) := by
    rw [hads]
    intro d hd
    rw [List.eq_of_mem_replicate hd]
    decide
  have hcount : ¬ Counted [] (longHops 33) := by
    unfold Counted
    rw [hads, List.length_replicate]
    omega
  refine ⟨hplaced, longEntry_recorded, hchain, hads, ?_⟩
  rintro ⟨fuel, r, hrun⟩
  exact udfReadFileEntry_uncounted hplaced longEntry_recorded hchain hplain hcount fuel () r hrun

end UdfRead
