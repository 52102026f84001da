import UdfRead.ReadsInPlace

/-!
# UdfRead.Seeking

`udfread_file_seek` against the numbers it stands for. Position and size are unsigned, but enter
the sum as signed words, so a base of 2^63 or more counts 2^64 less. A seek is exact or refused
exactly if the sum is one the signed type has and a base of that size leads to a target that must
be refused (`seekExact_iff`).
-/

namespace UdfRead

open CModel

/-- What `whence` counts from. -/
def seekBase (f : UdfFile) (whence : Int) : Option Nat :=
  if whence = seekCur then some f.pos.toNat
  else if whence = seekEnd then some f.fe.length.toNat
  else if whence = seekSet then some 0
  else none

/-- The result of an exact seek: the target becomes the position and the temporary block is
dropped, or the target is no position and nothing changes. -/
def exactSeek (f : UdfFile) (offset whence : Int) : Int × UdfFile :=
  match seekBase f whence with
  | none => (-1, f)
  | some base =>
    let target := base + offset
    if 0 ≤ target ∧ target < 2 ^ 63 then
      (target, { f with pos := UInt64.ofNat target.toNat, blockValid := false })
    else (-1, f)

/-- The call evaluates no signed sum that overflows and is an exact seek. -/
def SeekExact (f : UdfFile) (offset whence : Int) : Prop :=
  udfreadFileSeek f offset whence = .ok (exactSeek f offset whence)

/-- Counted from a base of the signed type, the target is in its range; from a larger base, the
target is not below the range and not behind the unsigned one. -/
def SeekFits (f : UdfFile) (offset whence : Int) : Prop :=
  ∀ base, seekBase f whence = some base →
    if base < 2 ^ 63 then base + offset < 2 ^ 63
    else 2 ^ 63 ≤ base + offset ∧ base + offset < 2 ^ 64

section

variable {f : UdfFile} {u : UInt64} {offset : Int}

theorem seekTo_neg {pos : Int} (h : pos < 0) : seekTo f pos = (-1, f) := by
  unfold seekTo
  rw [if_neg (by omega)]

theorem seekTo_exact {pos : Int} (h : 0 ≤ pos) (h' : pos < 2 ^ 63) :
    seekTo f pos = (pos, { f with pos := UInt64.ofNat pos.toNat, blockValid := false }) := by
  have hn : (UInt64.ofNat pos.toNat).toNat = pos.toNat := by
    rw [UInt64.toNat_ofNat', Nat.mod_eq_of_lt (by omega)]
  have htell : signed64 (UInt64.ofNat pos.toNat) = pos := by
    rw [signed64_of_lt (by omega)]
    omega
  unfold seekTo udfreadFileTell
  simp only [if_pos h, htell]

/-- The seek from a 64-bit base. -/
def seekFrom (f : UdfFile) (u : UInt64) (offset : Int) : Res (Int × UdfFile) := do
  return seekTo f (← addSigned64 (signed64 u) offset)

/-- A base of the signed type: the sum is the target. -/
theorem seekFrom_small (hoff : -2 ^ 63 ≤ offset) (hu : u.toNat < 2 ^ 63) :
    seekFrom f u offset =
      if u.toNat + offset < 2 ^ 63 then .ok (seekTo f (u.toNat + offset))
      else .error .signedOverflow := by
  unfold seekFrom addSigned64
  rw [signed64_of_lt hu]
  by_cases h : u.toNat + offset < 2 ^ 63
  · rw [if_pos ⟨by omega, h⟩, if_pos h]
    rfl
  · rw [if_neg (by omega), if_neg h]
    rfl

/-- A larger base: the sum is the target less 2^64. -/
theorem seekFrom_large (hoff : offset < 2 ^ 63) (hu : 2 ^ 63 ≤ u.toNat) :
    seekFrom f u offset =
      if 2 ^ 63 ≤ u.toNat + offset then .ok (seekTo f (u.toNat + offset - 2 ^ 64))
      else .error .signedOverflow := by
  have hlt := u.toNat_lt
  have hneg : signed64 u = u.toNat - 2 ^ 64 := if_neg (by omega)
  unfold seekFrom addSigned64
  rw [hneg]
  by_cases h : 2 ^ 63 ≤ u.toNat + offset
  · have hsum : (u.toNat : Int) - 2 ^ 64 + offset = u.toNat + offset - 2 ^ 64 := by omega
    rw [if_pos (by omega), if_pos h, hsum]
    rfl
  · rw [if_neg (by omega), if_neg h]
    rfl

/-- The seek from a base is the exact one exactly if the base and the target fit. -/
theorem seekFrom_exact (hlo : -2 ^ 63 ≤ offset) (hhi : offset < 2 ^ 63) :
    (seekFrom f u offset = .ok
      (if 0 ≤ (u.toNat : Int) + offset ∧ (u.toNat : Int) + offset < 2 ^ 63 then
        (u.toNat + offset,
          { f with pos := UInt64.ofNat (u.toNat + offset : Int).toNat, blockValid := false })
      else (-1, f))) ↔
    if u.toNat < 2 ^ 63 then (u.toNat : Int) + offset < 2 ^ 63
    else 2 ^ 63 ≤ (u.toNat : Int) + offset ∧ (u.toNat : Int) + offset < 2 ^ 64 := by
  have hlt := u.toNat_lt
  by_cases hu : u.toNat < 2 ^ 63
  · rw [seekFrom_small hlo hu, if_pos hu]
    by_cases hfit : (u.toNat : Int) + offset < 2 ^ 63
    · rw [if_pos hfit]
      by_cases hneg : (u.toNat : Int) + offset < 0
      · rw [if_neg (by omega), seekTo_neg hneg]
        exact iff_of_true rfl hfit
      · rw [if_pos ⟨by omega, hfit⟩, seekTo_exact (by omega) hfit]
        exact iff_of_true rfl hfit
    · rw [if_neg hfit]
      exact iff_of_false (fun h => by cases h) hfit
  · rw [seekFrom_large hhi (by omega), if_neg hu]
    by_cases hfit : 2 ^ 63 ≤ (u.toNat : Int) + offset
    · rw [if_pos hfit, if_neg (by omega)]
      by_cases hneg : (u.toNat : Int) + offset < 2 ^ 64
      · rw [seekTo_neg (by omega)]
        exact iff_of_true rfl ⟨hfit, hneg⟩
      · -- the sum has wrapped to a position
        rw [seekTo_exact (by omega) (by omega)]
        refine iff_of_false (fun h => ?_) fun h => hneg h.2
        have hres := congrArg Prod.fst (Except.ok.inj h)
        simp only at hres
        omega
    · rw [if_neg hfit]
      exact iff_of_false (fun h => by cases h) fun h => hfit h.1

theorem seekTo_eq_seekFrom (f : UdfFile) (offset : Int) (hlo : -2 ^ 63 ≤ offset)
    (hhi : offset < 2 ^ 63) : Except.ok (seekTo f offset) = seekFrom f 0 offset := by
  rw [seekFrom_small hlo (by simp), if_pos (by simpa using hhi)]
  simp

end

/-- A seek is exact or refused exactly if its base and its target fit. -/
theorem seekExact_iff (f : UdfFile) (offset whence : Int) (hlo : -2 ^ 63 ≤ offset)
    (hhi : offset < 2 ^ 63) : SeekExact f offset whence ↔ SeekFits f offset whence := by
  have hbase : ∀ (u : UInt64), seekBase f whence = some u.toNat →
      udfreadFileSeek f offset whence = seekFrom f u offset →
      (SeekExact f offset whence ↔ SeekFits f offset whence) := by
    intro u hu hrun
    have hiff := seekFrom_exact (f := f) (u := u) hlo hhi
    unfold SeekExact SeekFits exactSeek
    rw [hrun, hu]
    simp only [Option.some.injEq, forall_eq']
    exact hiff
  by_cases hcur : whence = seekCur
  · refine hbase f.pos (if_pos hcur) ?_
    unfold udfreadFileSeek
    rw [if_pos hcur]
    rfl
  · by_cases hend : whence = seekEnd
    · refine hbase f.fe.length ?_ ?_
      · unfold seekBase
        rw [if_neg hcur, if_pos hend]
      · unfold udfreadFileSeek
        rw [if_neg hcur, if_pos hend]
        rfl
    · by_cases hset : whence = seekSet
      · refine hbase 0 ?_ ?_
        · unfold seekBase
          rw [if_neg hcur, if_neg hend, if_pos hset]
          rfl
        · unfold udfreadFileSeek
          rw [if_neg hcur, if_neg hend, if_pos hset]
          exact seekTo_eq_seekFrom f offset hlo hhi
      · -- an unknown `whence` is refused
        have hnone : seekBase f whence = none := by
          unfold seekBase
          rw [if_neg hcur, if_neg hend, if_neg hset]
        refine iff_of_true ?_ fun base hb => ?_
        · unfold SeekExact udfreadFileSeek exactSeek
          rw [if_neg hcur, if_neg hend, if_neg hset, hnone]
        · rw [hnone] at hb
          cases hb

theorem seekExact_iff_back :
    SeekExact (.sparse 10) (-4) seekEnd ↔ SeekFits (.sparse 10) (-4) seekEnd :=
  seekExact_iff (.sparse 10) (-4) seekEnd (by decide) (by decide)

/-- From the end of a file of one byte, the largest offset overflows the sum; in a file whose length
reads as -1, an offset of 5 from the end is taken for position 4. -/
theorem seek_wraps :
    udfreadFileSeek (.sparse 1) (2 ^ 63 - 1) seekEnd = .error .signedOverflow ∧
      ¬ SeekExact (.sparse 1) (2 ^ 63 - 1) seekEnd ∧
      udfreadFileSeek (.sparse 18446744073709551615) 5 seekEnd =
        .ok (4, { UdfFile.sparse 18446744073709551615 with pos := 4 }) ∧
      ¬ SeekExact (.sparse 18446744073709551615) 5 seekEnd := by
  have htrap : udfreadFileSeek (.sparse 1) (2 ^ 63 - 1) seekEnd = .error .signedOverflow := rfl
  have hpos : udfreadFileSeek (.sparse 18446744073709551615) 5 seekEnd =
      .ok (4, { UdfFile.sparse 18446744073709551615 with pos := 4 }) := rfl
  refine ⟨htrap, fun h => ?_, hpos, fun h => ?_⟩
  · unfold SeekExact at h
    rw [htrap] at h
    cases h
  · unfold SeekExact at h
    rw [hpos] at h
    have hres : (4 : Int) = -1 := congrArg Prod.fst (Except.ok.inj h)
    omega

end UdfRead
