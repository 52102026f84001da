import UdfRead.Mutf8

/-!
# UdfRead.Cs0Buffer

The output buffer of `udf_cs0_to_mutf8`. It starts at the size of the input and grows by what a
character needs beyond one byte, so in front of every iteration there is `Room` for one byte for
each unit left and for the terminator (`cs0After_room`). No write of the conversion traps.
-/

namespace UdfRead

open CModel

/-- Room for `n` more units and the terminator. -/
def OutBuf.Room (o : OutBuf) (n : Nat) : Prop := o.out.length + n + 1 ≤ o.outSize

section

variable {o o' : OutBuf} {n : Nat}

/-! ## One character -/

theorem OutBuf.put_ok {b : UInt8} (h : o.out.length < o.outSize) :
    o.put b = .ok { o with out := o.out ++ [b] } := if_pos h

theorem OutBuf.put_size {b : UInt8} (h : o.put b = .ok o') : o'.outSize = o.outSize := by
  unfold OutBuf.put at h
  split at h
  · cases h
    rfl
  · cases h

/-- A unit below 0x80 takes the room of one byte, the others make room for what they need. -/
theorem utf16loToMutf8_room (h : o.Room (n + 1)) (ch : UInt16) :
    ∃ o', utf16loToMutf8 o ch = .ok o' ∧ o'.Room n := by
  unfold OutBuf.Room at h
  unfold utf16loToMutf8
  split
  · exact ⟨_, OutBuf.put_ok (by omega), by simp [OutBuf.Room]; omega⟩
  · rw [OutBuf.put_ok (by simp [OutBuf.grow]; omega), Res.ok_bind]
    exact ⟨_, OutBuf.put_ok (by simp [OutBuf.grow]; omega), by simp [OutBuf.Room, OutBuf.grow]; omega⟩

theorem utf16ToMutf8_room (h : o.Room (n + 1)) (ch : UInt16) :
    ∃ o', utf16ToMutf8 o ch = .ok o' ∧ o'.Room n := by
  unfold utf16ToMutf8
  split
  · exact utf16loToMutf8_room h ch
  · unfold OutBuf.Room at h
    rw [OutBuf.put_ok (by simp [OutBuf.grow]; omega), Res.ok_bind,
      OutBuf.put_ok (by simp [OutBuf.grow]; omega), Res.ok_bind]
    exact ⟨_, OutBuf.put_ok (by simp [OutBuf.grow]; omega), by simp [OutBuf.Room, OutBuf.grow]; omega⟩

theorem utf16loToMutf8_size {ch : UInt16} (h : utf16loToMutf8 o ch = .ok o') :
    o'.outSize ≤ o.outSize + 1 := by
  unfold utf16loToMutf8 at h
  split at h
  · rw [OutBuf.put_size h]
    omega
  · obtain ⟨o₁, h₁, h₂⟩ := Res.bind_eq_ok.mp h
    rw [OutBuf.put_size h₂, OutBuf.put_size h₁]
    exact le_refl _

theorem utf16ToMutf8_size {ch : UInt16} (h : utf16ToMutf8 o ch = .ok o') :
    o'.outSize ≤ o.outSize + 2 := by
  unfold utf16ToMutf8 at h
  split at h
  · have := utf16loToMutf8_size h
    omega
  · obtain ⟨o₁, h₁, h⟩ := Res.bind_eq_ok.mp h
    obtain ⟨o₂, h₂, h₃⟩ := Res.bind_eq_ok.mp h
    rw [OutBuf.put_size h₃, OutBuf.put_size h₂, OutBuf.put_size h₁]
    exact le_refl _

/-! ## The loops -/

/-- `k` iterations use the room of `k` units. -/
theorem cs0Loop8_room {cs0 : Bytes} {k i : Nat} (hi : i + k ≤ cs0.length) (h : o.Room (k + n)) :
    ∃ o', cs0Loop8 cs0 k i o = .ok o' ∧ o'.Room n ∧ o'.outSize ≤ o.outSize + k := by
  induction k generalizing i o with
  | zero =>
    rw [Nat.zero_add] at h
    exact ⟨o, rfl, h, le_refl _⟩
  | succ k ih =>
    rw [cs0Loop8, byteAt_eq (by omega), Res.ok_bind]
    rw [Nat.add_right_comm] at h
    obtain ⟨o₁, ho, hroom⟩ := utf16loToMutf8_room h (cs0.getD i 0).toUInt16
    have hsize := utf16loToMutf8_size ho
    rw [ho, Res.ok_bind]
    obtain ⟨o', ho', hroom', hsize'⟩ := ih (i := i + 1) (by omega) hroom
    exact ⟨o', ho', hroom', by omega⟩

theorem cs0Loop16_room {cs0 : Bytes} {k i : Nat} (hi : i + 2 * k ≤ cs0.length)
    (h : o.Room (k + n)) :
    ∃ o', cs0Loop16 cs0 k i o = .ok o' ∧ o'.Room n ∧ o'.outSize ≤ o.outSize + 2 * k := by
  induction k generalizing i o with
  | zero =>
    rw [Nat.zero_add] at h
    exact ⟨o, rfl, h, le_refl _⟩
  | succ k ih =>
    rw [cs0Loop16, byteAt_eq (by omega), Res.ok_bind, byteAt_eq (by omega), Res.ok_bind]
    rw [Nat.add_right_comm] at h
    obtain ⟨o₁, ho, hroom⟩ := utf16ToMutf8_room h
      ((cs0.getD (i + 1) 0).toUInt16 ||| ((cs0.getD i 0).toUInt16 <<< 8))
    have hsize := utf16ToMutf8_size ho
    rw [ho, Res.ok_bind]
    obtain ⟨o', ho', hroom', hsize'⟩ := ih (i := i + 2) (by omega) hroom
    exact ⟨o', ho', hroom', by omega⟩

end

/-! ## The conversion -/

section

variable {cs0 : Bytes}

/-- The buffer `malloc` returns. -/
def cs0Start (cs0 : Bytes) : OutBuf where
  out := []
  outSize := cs0.length

/-- The code units of a string with compression id 8 or 16; an odd byte at the end is left over. -/
def cs0Units (cs0 : Bytes) : Nat :=
  if cs0.head? = some 8 then cs0.length - 1 else (cs0.length - 1) / 2

/-- The buffer after `k` iterations of the loop for the compression id. -/
def cs0After (cs0 : Bytes) (k : Nat) : Res OutBuf :=
  if cs0.head? = some 8 then cs0Loop8 cs0 k 1 (cs0Start cs0) else cs0Loop16 cs0 k 1 (cs0Start cs0)

theorem cs0Units_le (cs0 : Bytes) : cs0Units cs0 ≤ cs0.length - 1 := by
  unfold cs0Units
  split <;> omega

/-- After any number of iterations there is room for one byte for each unit left and for the
terminator. The size stays a `size_t`. -/
theorem cs0After_fits (hsize : 1 ≤ cs0.length) {k : Nat} (hk : k ≤ cs0Units cs0) :
    ∃ o, cs0After cs0 k = .ok o ∧ o.Room (cs0Units cs0 - k) ∧ o.outSize < 2 * cs0.length := by
  have hstart : (cs0Start cs0).Room (k + (cs0Units cs0 - k)) := by
    have := cs0Units_le cs0
    simp only [OutBuf.Room, cs0Start, List.length_nil]
    omega
  unfold cs0After
  unfold cs0Units at hk
  split
  · rw [if_pos ‹_›] at hk
    have hi : 1 + k ≤ cs0.length := by omega
    obtain ⟨o, ho, hroom, hgrown⟩ := cs0Loop8_room hi hstart
    exact ⟨o, ho, hroom, by simp only [cs0Start] at hgrown; omega⟩
  · rw [if_neg ‹_›] at hk
    have hi : 1 + 2 * k ≤ cs0.length := by omega
    obtain ⟨o, ho, hroom, hgrown⟩ := cs0Loop16_room hi hstart
    exact ⟨o, ho, hroom, by simp only [cs0Start] at hgrown; omega⟩

/-- The conversion: the iterations for all units, then the terminator. -/
theorem udfCs0ToMutf8_after (hid : cs0.head? = some 8 ∨ cs0.head? = some 16) :
    udfCs0ToMutf8 cs0 = (do
      let o ← cs0After cs0 (cs0Units cs0)
      let _ ← o.put 0
      return some o.out) := by
  cases cs0 with
  | nil => simp at hid
  | cons id rest =>
    simp only [List.head?_cons, Option.some.injEq] at hid
    unfold udfCs0ToMutf8 cs0After cs0Units
    rw [if_neg (by simp), byteAt_eq (by simp)]
    rcases hid with rfl | rfl
    · simp [cs0Start]
    · simp [cs0Start]

theorem udfCs0ToMutf8_ok (cs0 : Bytes) : ∃ r, udfCs0ToMutf8 cs0 = .ok r := by
  by_cases hid : cs0.head? = some 8 ∨ cs0.head? = some 16
  · have hsize : 1 ≤ cs0.length := by
      cases cs0 with
      | nil => simp at hid
      | cons id rest => simp
    obtain ⟨o, ho, hroom, -⟩ := cs0After_fits hsize (le_refl (cs0Units cs0))
    rw [udfCs0ToMutf8_after hid, ho, Res.ok_bind, OutBuf.put_ok (by unfold OutBuf.Room at hroom; omega)]
    exact ⟨_, rfl⟩
  · unfold udfCs0ToMutf8
    cases cs0 with
    | nil => exact ⟨_, rfl⟩
    | cons id rest =>
      simp only [List.head?_cons, Option.some.injEq, not_or] at hid
      rw [if_neg (by simp), byteAt_eq (by simp)]
      simp [hid.1, hid.2, Res.ok_bind]

/-- The buffer of the conversion always suffices: after each iteration for the units left and the
terminator, and so for every write up to the terminator. -/
theorem cs0After_room (hsize : 1 ≤ cs0.length)
    (hid : cs0.head? = some 8 ∨ cs0.head? = some 16) :
    (∀ k, k ≤ cs0Units cs0 → ∃ o, cs0After cs0 k = .ok o ∧
      o.out.length + (cs0Units cs0 - k) + 1 ≤ o.outSize ∧ o.outSize < 2 * cs0.length) ∧
    ∃ o, cs0After cs0 (cs0Units cs0) = .ok o ∧ o.out.length < o.outSize ∧
      udfCs0ToMutf8 cs0 = .ok (some o.out) := by
  refine ⟨fun k hk => cs0After_fits hsize hk, ?_⟩
  obtain ⟨o, ho, hroom, -⟩ := cs0After_fits hsize (le_refl (cs0Units cs0))
  have hlt : o.out.length < o.outSize := by
    unfold OutBuf.Room at hroom
    omega
  refine ⟨o, ho, hlt, ?_⟩
  rw [udfCs0ToMutf8_after hid, ho, Res.ok_bind, OutBuf.put_ok hlt]
  rfl

/-- Two units, the first of three bytes. -/
theorem cs0After_room_wide :
    (∀ k, k ≤ cs0Units [16, 0x20, 0xac, 0, 0x41] → ∃ o, cs0After [16, 0x20, 0xac, 0, 0x41] k = .ok o ∧
      o.out.length + (cs0Units [16, 0x20, 0xac, 0, 0x41] - k) + 1 ≤ o.outSize ∧ o.outSize < 2 * 5) ∧
    ∃ o, cs0After [16, 0x20, 0xac, 0, 0x41] (cs0Units [16, 0x20, 0xac, 0, 0x41]) = .ok o ∧
      o.out.length < o.outSize ∧ udfCs0ToMutf8 [16, 0x20, 0xac, 0, 0x41] = .ok (some o.out) :=
  cs0After_room (by simp) (.inr rfl)

end

end UdfRead
