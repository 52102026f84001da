import UdfRead.ByteStream
import UdfRead.FileIdentifiers
import UdfRead.Metadata

/-!
# UdfRead.DecoderBounds

The calls in which bytes of the medium meet a buffer. A call stays inside of its buffers exactly
if no 32-bit count of allocation descriptors and no 64-bit position wraps around
(`decoderCall_inBounds_iff`): the numbers recorded on the medium alone cannot drive a decoder out of
its buffers.
-/

namespace UdfRead

open CModel

section

variable {σ : Type}

/-- A call of a decoder, with the buffers its callers hand to it. -/
inductive DecoderCall (σ : Type) where
  /-- `decode_file_entry` on a block -/
  | fileEntry (p : Bytes) (block : p.length = 2048) (partition : UInt16)
  /-- `decode_ext_file_entry` on a block -/
  | extFileEntry (p : Bytes) (block : p.length = 2048) (partition : UInt16)
  /-- `decode_allocation_extent` on the buffer `_read_metadata` returns -/
  | allocationExtent (fe : FileEntry) (sized : fe.Sized) (I : BlockInput σ) (part : UdfPartitions)
      (icb : LongAd) (s s' : σ) (tag : TagIdentifier) (buf : Bytes)
      (read : readMetadata I part icb s = .ok (some (tag, buf), s'))
  /-- `decode_file_identifier` with `size` bytes from index `i` on -/
  | fileIdentifier (p : Bytes) (i size : Nat) (fits : i + size ≤ p.length)
  /-- `_parse_dir_file` on inline content -/
  | inlineDir (content : Bytes) (sized : content.length < 2 ^ 32) (dir : List UdfFileIdentifier)
  /-- `_parse_dir_file` on the buffer `_read_metadata` returns -/
  | dirExtent (dir : List UdfFileIdentifier) (I : BlockInput σ) (part : UdfPartitions)
      (loc : LongAd) (s s' : σ) (tag : TagIdentifier) (buf : Bytes)
      (read : readMetadata I part loc s = .ok (some (tag, buf), s'))
  /-- `decode_logical_volume` on a block, and `udf_parse_partition_maps` on its table -/
  | partitionMaps (p : Bytes) (block : p.length = 2048) (old : VolumeDescriptorSet)
      (I : BlockInput σ) (part : UdfPartitions) (s : σ)
  /-- `udf_cs0_to_mutf8` -/
  | cs0 (name : Bytes)
  /-- `_read_inline` at any position -/
  | readInline (f : UdfFile) (content : Bytes) (sized : content.length < 2 ^ 32) (mem : Mem)
      (buf : Nat) (bytes : UInt64)

/-- The descriptors that an allocation extent in `buf` adds. -/
def extentAds (t : AdType) (buf : Bytes) : Nat := leVal buf 20 4 / t.size

namespace DecoderCall

/-- The call returns: no access traps. -/
def InBounds : DecoderCall σ → Prop
  | fileEntry p _ partition => ∃ r, decodeFileEntry p 2048 partition = .ok r
  | extFileEntry p _ partition => ∃ r, decodeExtFileEntry p 2048 partition = .ok r
  | allocationExtent fe _ _ _ icb _ _ _ buf _ =>
    ∃ r, decodeAllocationExtent fe buf icb.length.toNat icb.partition = .ok r
  | fileIdentifier p i size _ => ∃ r, decodeFileIdentifier p i size = .ok r
  | inlineDir content _ dir => ∃ r, parseDirFile content (UInt32.ofNat content.length) dir = .ok r
  | dirExtent dir _ _ loc _ _ _ buf _ => ∃ r, parseDirFile buf loc.length dir = .ok r
  | partitionMaps p _ old I part s =>
    ∃ lvd r, decodeLogicalVolume p old.lvd = .ok lvd ∧
      udfParsePartitionMaps I { old with lvd } part s = .ok r
  | cs0 name => ∃ r, udfCs0ToMutf8 name = .ok r
  | readInline f content _ mem buf bytes => ∃ r, UdfRead.readInline f content mem buf bytes = .ok r

/-- The call wraps a number around: the count of the descriptors of a file entry and an accepted
extent, or the end of a read that is then taken to lie inside of the content. -/
def Wraps : DecoderCall σ → Prop
  | allocationExtent fe _ _ _ icb _ _ _ buf _ =>
    ∃ t ad, fe.u = .ads t ad ∧ 24 + leVal buf 20 4 ≤ icb.length.toNat ∧
      2 ^ 32 ≤ ad.length + extentAds t buf
  | readInline f content _ _ _ bytes =>
    2 ^ 64 ≤ f.pos.toNat + bytes.toNat ∧ f.pos.toNat + bytes.toNat - 2 ^ 64 ≤ content.length
  | _ => False

end DecoderCall

/-! ## Allocation extents -/

theorem allocationExtent_inBounds {fe : FileEntry} {buf : Bytes} {size : Nat}
    {partition : UInt16} (hsized : fe.Sized) (hbuf : 24 ≤ buf.length) (hsize : size ≤ buf.length) :
    (∃ r, decodeAllocationExtent fe buf size partition = .ok r) ↔
      ¬ ∃ t ad, fe.u = .ads t ad ∧ 24 + leVal buf 20 4 ≤ size ∧
        2 ^ 32 ≤ ad.length + extentAds t buf := by
  unfold FileEntry.Sized at hsized
  cases hu : fe.u with
  | data content =>
    have hnone : decodeAllocationExtent fe buf size partition = .ok none := by
      rw [decodeAllocationExtent, getU32_eq (by omega), Res.ok_bind, hu]
      simp
    simp [hnone]
  | ads t ad =>
    rw [hu] at hsized
    rw [decodeAllocationExtent_eq hbuf hsize hu hsized]
    constructor
    · rintro ⟨r, hr⟩ ⟨t', ad', h, hfit, hwrap⟩
      cases h
      unfold extentAds at hwrap
      have hads : ad.length < 2 ^ 32 := hsized
      rw [if_pos (by omega), if_neg (by omega), if_neg (by omega)] at hr
      cases hr
    · intro h
      split
      · split
        · exact ⟨_, rfl⟩
        · split
          · exact ⟨_, rfl⟩
          · rename_i hfit hone hwrap
            exact absurd ⟨t, ad, rfl, hfit.2, by unfold extentAds; omega⟩ h
      · exact ⟨_, rfl⟩

/-! ## Inline content -/

theorem readInline_inBounds {f : UdfFile} {content : Bytes} {mem : Mem} {buf : Nat}
    {bytes : UInt64} (hsized : content.length < 2 ^ 32) :
    (∃ r, readInline f content mem buf bytes = .ok r) ↔
      ¬ (2 ^ 64 ≤ f.pos.toNat + bytes.toNat ∧
        f.pos.toNat + bytes.toNat - 2 ^ 64 ≤ content.length) := by
  have hpos := f.pos.toNat_lt
  have hbytes := bytes.toNat_lt
  have hadd : (f.pos + bytes).toNat = (f.pos.toNat + bytes.toNat) % 2 ^ 64 := UInt64.toNat_add _ _
  have hil : (UInt64.ofNat content.length).toNat = content.length := by
    rw [UInt64.toNat_ofNat', Nat.mod_eq_of_lt (by omega)]
  have hslice : ∀ pad : UInt64, pad.toNat < bytes.toNat → ((∃ r, (do
      let data ← slice content f.pos.toNat (bytes - pad).toNat
      return ((bytes.toNat : Int), { f with pos := f.pos + bytes },
        (mem.blit (buf + (bytes - pad).toNat) pad.toNat fun _ => 0).blit buf (bytes - pad).toNat
          fun k => data.getD k 0) : Res (Int × UdfFile × Mem)) = .ok r) ↔
      f.pos.toNat + (bytes.toNat - pad.toNat) ≤ content.length) := by
    intro pad hlt
    rw [UInt64.toNat_sub_of_le _ _ (UInt64.le_iff_toNat_le.mpr (by omega)), slice]
    split
    · rename_i h
      simp [h]
    · rename_i h
      simp [h]
  unfold readInline
  by_cases hover : f.pos + bytes > UInt64.ofNat content.length
  · have hover' := UInt64.lt_iff_toNat_lt.mp hover
    by_cases hbehind : f.pos > UInt64.ofNat content.length
    · have hbehind' := UInt64.lt_iff_toNat_lt.mp hbehind
      simp only [if_pos hover, if_pos hbehind, UInt64.lt_irrefl, if_false]
      refine ⟨fun _ => by omega, fun _ => ⟨_, rfl⟩⟩
    · have hin : f.pos.toNat ≤ content.length := by
        have := UInt64.le_iff_toNat_le.mp (UInt64.not_lt.mp hbehind)
        omega
      have hpad : (f.pos + bytes - UInt64.ofNat content.length).toNat =
          (f.pos + bytes).toNat - content.length := by
        rw [UInt64.toNat_sub_of_le _ _ (UInt64.le_of_lt hover), hil]
      simp only [if_pos hover, if_neg hbehind]
      by_cases hlt : f.pos + bytes - UInt64.ofNat content.length < bytes
      · have hlt' := UInt64.lt_iff_toNat_lt.mp hlt
        rw [if_pos hlt, hslice _ hlt']
        omega
      · rw [if_neg hlt]
        exact ⟨fun _ => by omega, fun _ => ⟨_, rfl⟩⟩
  · have hover' := UInt64.le_iff_toNat_le.mp (UInt64.not_lt.mp hover)
    simp only [if_neg hover]
    by_cases hlt : (0 : UInt64) < bytes
    · have hlt' : 0 < bytes.toNat := UInt64.lt_iff_toNat_lt.mp hlt
      rw [if_pos hlt, hslice 0 hlt', UInt64.toNat_zero]
      omega
    · have hzero : ¬ 0 < bytes.toNat := fun h => hlt (UInt64.lt_iff_toNat_lt.mpr h)
      rw [if_neg hlt]
      exact ⟨fun _ => by omega, fun _ => ⟨_, rfl⟩⟩

/-! ## All calls -/

theorem decoderCall_inBounds_iff (c : DecoderCall σ) : c.InBounds ↔ ¬ c.Wraps := by
  cases c with
  | fileEntry p block partition =>
    simp only [DecoderCall.Wraps, not_false_iff, iff_true]
    exact ⟨_, decodeFileEntry_eq block.ge⟩
  | extFileEntry p block partition =>
    simp only [DecoderCall.Wraps, not_false_iff, iff_true]
    exact ⟨_, decodeExtFileEntry_eq block.ge⟩
  | allocationExtent fe sized I part icb s s' tag buf read =>
    obtain ⟨r, s₁, hr, hlen⟩ := readMetadata_returns I part icb s
    rw [read] at hr
    cases hr
    obtain ⟨hsize, hbuf⟩ := hlen tag buf rfl
    exact allocationExtent_inBounds sized (by omega) hsize
  | fileIdentifier p i size fits =>
    simp only [DecoderCall.Wraps, not_false_iff, iff_true]
    exact ⟨_, decodeFileIdentifier_eq fits⟩
  | inlineDir content sized dir =>
    simp only [DecoderCall.Wraps, not_false_iff, iff_true]
    refine parseDirFile_ok ?_ dir
    rw [UInt32.toNat_ofNat', Nat.mod_eq_of_lt sized]
  | dirExtent dir I part loc s s' tag buf read =>
    simp only [DecoderCall.Wraps, not_false_iff, iff_true]
    obtain ⟨r, s₁, hr, hlen⟩ := readMetadata_returns I part loc s
    rw [read] at hr
    cases hr
    exact parseDirFile_ok (hlen tag buf rfl).1 dir
  | partitionMaps p block old I part s =>
    simp only [DecoderCall.Wraps, not_false_iff, iff_true]
    obtain ⟨lvd, hlvd⟩ := decodeLogicalVolume_ok block old.lvd
    obtain ⟨r, s', hr, -⟩ := udfParsePartitionMaps_returns I { old with lvd } part s
    exact ⟨lvd, _, hlvd, hr⟩
  | cs0 name =>
    simp only [DecoderCall.Wraps, not_false_iff, iff_true]
    exact udfCs0ToMutf8_ok name
  | readInline f content sized mem buf bytes => exact readInline_inBounds sized

end

/-! ## A count that wraps -/

def oneAdImage : Image := fun lba => if lba = 40 then some oneAdExtent else none

def oneAdIcb : LongAd := { lba := 40, length := 32, partition := 0, extentType := 3 }

/-- A file entry with 2^32 - 1 descriptors. -/
def fullFile : FileEntry where
  length := 0
  fileType := 5
  u := .ads .short (List.replicate 4294967295
    { lba := 0, length := 2048, partition := 0, extentType := 0 })

theorem fullFile_sized : fullFile.Sized := by
  show (List.replicate 4294967295 _).length < 2 ^ 32
  rw [List.length_replicate]
  decide

theorem oneAdImage_read :
    readMetadata (.ofImage oneAdImage none) onePartition oneAdIcb () =
      .ok (some (.allocationExtentDescriptor, blockBytes oneAdExtent), ()) := by
  decide +kernel

/-- One descriptor more is stored behind an array that was made for none. -/
theorem fullFile_overrun :
    decodeAllocationExtent fullFile (blockBytes oneAdExtent) oneAdIcb.length.toNat
      oneAdIcb.partition = .error .outOfBounds ∧ ¬ ∀ c : DecoderCall Unit, c.InBounds := by
  have hlAd : leVal (blockBytes oneAdExtent) 20 4 = 8 := by decide +kernel
  have hfull : decodeAllocationExtent fullFile (blockBytes oneAdExtent) oneAdIcb.length.toNat
      oneAdIcb.partition = .error .outOfBounds := by
    rw [decodeAllocationExtent_eq (by simp) (by simp; decide) rfl fullFile_sized, hlAd,
      List.length_replicate]
    rfl
  refine ⟨hfull, fun h => ?_⟩
  obtain ⟨r, hr⟩ := h (.allocationExtent fullFile fullFile_sized _ _ _ _ _ _ _ oneAdImage_read)
  rw [hfull] at hr
  cases hr

end UdfRead
