import UdfRead.Ecma167

/-!
# UdfRead.InBounds

Decoders on buffers that are long enough: they return, whatever the bytes are.
-/

namespace UdfRead

open CModel

section

variable {p : Bytes} {i : Nat}

theorem tagChecksum_ok (h : i + 16 ≤ p.length) : ∃ c, tagChecksum p i = .ok c := by
  simp (disch := omega) [tagChecksum, byteAt_eq]

theorem decodeDescriptorTag_ok (h : i + 16 ≤ p.length) : ∃ tag, decodeDescriptorTag p i = .ok tag := by
  obtain ⟨c, hc⟩ := tagChecksum_ok h
  simp (disch := omega) only [decodeDescriptorTag, getU16_eq, hc, byteAt_eq, Res.ok_bind]
  split <;> exact ⟨_, rfl⟩

theorem decodeExtentAd_ok (h : i + 8 ≤ p.length) : ∃ ad, decodeExtentAd p i = .ok ad := by
  simp (disch := omega) [decodeExtentAd, getU32_eq]

theorem decodeAvdp_ok (h : p.length = 2048) : ∃ avdp, decodeAvdp p = .ok avdp := by
  obtain ⟨mvds, hm⟩ := decodeExtentAd_ok (p := p) (i := 16) (by omega)
  obtain ⟨rvds, hr⟩ := decodeExtentAd_ok (p := p) (i := 24) (by omega)
  simp [decodeAvdp, hm, hr]

theorem decodeVdp_ok (h : p.length = 2048) : ∃ ad, decodeVdp p = .ok ad :=
  decodeExtentAd_ok (by omega)

theorem decodeDstring_ok {n : Nat} (hn : 1 ≤ n) (h : i + n ≤ p.length) :
    ∃ r, decodeDstring p i n = .ok r := by
  rw [decodeDstring, if_neg (by omega)]
  simp (disch := omega) only [getU8_eq, Res.ok_bind]
  split
  · simp (disch := omega) [slice_eq]
  · rw [slice_eq (by omega)]
    exact ⟨_, rfl⟩

theorem decodePrimaryVolume_ok (h : p.length = 2048) :
    ∃ pvd, decodePrimaryVolume p = .ok pvd := by
  obtain ⟨r, hr⟩ := decodeDstring_ok (p := p) (i := 24) (n := 32) (by omega) (by omega)
  simp (disch := omega) [decodePrimaryVolume, hr, slice_eq]

theorem decodePartition_ok (h : p.length = 2048) : ∃ pd, decodePartition p = .ok pd := by
  simp (disch := omega) [decodePartition, getU16_eq, getU32_eq]

theorem decodeEntityId_ok (h : i + 32 ≤ p.length) : ∃ eid, decodeEntityId p i = .ok eid := by
  simp (disch := omega) [decodeEntityId, slice_eq]

theorem decodeLogicalVolume_ok (h : p.length = 2048) (old : LogicalVolumeDescriptor) :
    ∃ lvd, decodeLogicalVolume p old = .ok lvd := by
  obtain ⟨eid, he⟩ := decodeEntityId_ok (p := p) (i := 216) (by omega)
  have hm : ∀ n, mapSize n ≤ 2048 - 440 := fun n => Nat.min_le_right _ _
  have hold := old.tableSize
  simp (disch := omega) only [decodeLogicalVolume, getU32_eq, slice_eq, he, Res.ok_bind]
  rw [slice_eq (by have := hm (UInt32.ofNat (leVal p 264 4)); omega)]
  simp only [Res.ok_bind]
  split
  · exact ⟨_, rfl⟩
  · rename_i hne
    refine absurd ?_ hne
    have := hm (UInt32.ofNat (leVal p 264 4))
    simp
    omega

end

end UdfRead
