import UdfRead.BlockInput
import UdfRead.InBounds

/-!
# UdfRead.Image

Images: inputs whose blocks are either always readable or never. A block is read as a function of
its bytes, so concrete blocks can be decoded without building the byte list.
-/

namespace UdfRead

open CModel

/-- An image: which blocks are readable, and their bytes. -/
abbrev Image := UInt32 → Option (Nat → UInt8)

/-! ## Block numbers -/

theorem add_ofNat_zero (i : UInt32) : i + UInt32.ofNat 0 = i := UInt32.add_zero i

theorem add_one_ofNat (i : UInt32) (k : Nat) : i + 1 + UInt32.ofNat k = i + UInt32.ofNat (k + 1) := by
  rw [UInt32.ofNat_add, UInt32.add_comm (UInt32.ofNat k), UInt32.add_assoc]
  rfl

/-- An extent that `_read_metadata` does not refuse is not empty. -/
theorem length_pos_of_blocks {length : UInt32} (h : ¬ (length + 2048 - 1) / 2048 < 1) :
    1 ≤ length.toNat := by
  by_contra hc
  obtain rfl : length = 0 := UInt32.toNat_inj.mp (by simp; omega)
  exact h (by decide)

theorem following_blocks {length : UInt32} (h : 1 ≤ length.toNat) :
    ((length - 1) / 2048).toNat = (length.toNat - 1) / 2048 := by
  have hsub : (length - 1).toNat = length.toNat - 1 :=
    UInt32.toNat_sub_of_le _ _ (UInt32.le_iff_toNat_le.mpr h)
  rw [UInt32.toNat_div, hsub]
  rfl

/-! ## Blocks of an image -/

theorem byteAt_block {data : Nat → UInt8} {i : Nat} (h : i < 2048) :
    byteAt (blockBytes data) i = .ok (data i) := by
  rw [byteAt, blockBytes, List.getElem?_ofFn, dif_pos h]

theorem blockBytes_getD {data : Nat → UInt8} {i : Nat} (h : i < 2048) :
    (blockBytes data).getD i 0 = data i := by
  rw [List.getD_eq_getElem?_getD, blockBytes, List.getElem?_ofFn, dif_pos h]
  rfl

/-- The tag of a block, from its first 16 bytes. -/
theorem decodeDescriptorTag_block (data : Nat → UInt8) :
    decodeDescriptorTag (blockBytes data) 0 =
      .ok (if [0, 1, 2, 3, 5, 6, 7, 8, 9, 10, 11, 12, 13, 14, 15].foldl (· + data ·) 0 ≠ data 4
        then .invalid
        else .ofId ((data 0).toUInt32 ||| ((data 1).toUInt32 <<< 8))) := by
  simp (disch := decide) only [decodeDescriptorTag, getU16, getU8, tagChecksum, byteAt_block,
    List.foldlM_cons, List.foldlM_nil, List.foldl_cons, List.foldl_nil, Res.ok_bind, Res.pure_def,
    Nat.zero_add]
  exact (apply_ite Except.ok _ _ _).symm

/-- The tag of a block, and the block. -/
def imageTag (image : Image) (lba : UInt32) : TagIdentifier × Bytes :=
  match image lba with
  | none => (.invalid, [])
  | some data =>
    match decodeDescriptorTag (blockBytes data) 0 with
    | .ok tag => (tag, blockBytes data)
    | .error _ => (.invalid, blockBytes data)

section

variable {image : Image} {nblocks : Option UInt32}

theorem readBlock_ofImage (lba : UInt32) :
    (BlockInput.ofImage image nblocks).readBlock lba () =
      .ok ((image lba).map blockBytes, ()) := by
  cases h : image lba with
  | none => simp [BlockInput.readBlock, BlockInput.ofImage, h]
  | some data => simp [BlockInput.readBlock, BlockInput.ofImage, h]

theorem readDescriptorBlock_ofImage (lba : UInt32) :
    (BlockInput.ofImage image nblocks).readDescriptorBlock lba () = .ok (imageTag image lba, ()) := by
  unfold BlockInput.readDescriptorBlock imageTag
  cases h : image lba with
  | none =>
    rw [Proc.bind_of_ok (readBlock_ofImage lba), h]
    rfl
  | some data =>
    obtain ⟨tag, ht⟩ := decodeDescriptorTag_ok (p := blockBytes data) (i := 0) (by simp)
    rw [Proc.bind_of_ok (readBlock_ofImage lba), h]
    simp only [Option.map_some, ht]
    rfl

theorem imageTag_length (image : Image) (lba : UInt32) (h : (imageTag image lba).1 ≠ .invalid) :
    (imageTag image lba).2.length = 2048 := by
  unfold imageTag at h ⊢
  cases hi : image lba with
  | none => simp [hi] at h
  | some data =>
    obtain ⟨tag, ht⟩ := decodeDescriptorTag_ok (p := blockBytes data) (i := 0) (by simp)
    simp only [ht, blockBytes_length]

end

/-! ## Lost blocks -/

/-- The image without the lost blocks. -/
def damaged (image : Image) (lost : UInt32 → Bool) : Image := fun lba =>
  if lost lba then none else image lba

section

variable {image : Image} {lost : UInt32 → Bool} {lba : UInt32}

theorem damaged_lost (h : lost lba = true) : damaged image lost lba = none := if_pos h

theorem damaged_kept (h : lost lba = false) : damaged image lost lba = image lba :=
  if_neg (by rw [h]; exact Bool.false_ne_true)

theorem imageTag_damaged (image : Image) (lost : UInt32 → Bool) (lba : UInt32) :
    imageTag (damaged image lost) lba =
    if lost lba then (.invalid, []) else imageTag image lba := by
  by_cases h : lost lba = true
  · rw [if_pos h, imageTag, damaged_lost h]
  · rw [if_neg h, imageTag, damaged_kept (by simpa using h), imageTag]

end

end UdfRead
