import UdfRead.Descriptors
import UdfRead.Fs
import UdfRead.Cs0Buffer

/-!
# UdfRead.FileIdentifiers

File identifiers in a directory file, as a function of the recorded numbers.
-/

namespace UdfRead

open CModel

section

variable {p : Bytes} {i : Nat}

/-! ## Identifiers -/

/-- The length of the name of the identifier at index `i`. -/
def nameLengthAt (p : Bytes) (i : Nat) : Nat := leVal p (i + 19) 1

/-- The length of the implementation use field of the identifier at index `i`. -/
def useLengthAt (p : Bytes) (i : Nat) : Nat := leVal p (i + 36) 2

/-- The bytes of the identifier at index `i`, without padding. -/
def fidSize (p : Bytes) (i : Nat) : Nat := 38 + useLengthAt p i + nameLengthAt p i

/-- Rounded up to dwords. -/
def padded (n : Nat) : Nat := 4 * ((n + 3) / 4)

theorem le_padded (n : Nat) : n ≤ padded n := by
  unfold padded
  omega

/-- The identifier recorded at index `i`. -/
def fidAt (p : Bytes) (i : Nat) : FileIdentifier where
  icb := adAt .long p 0 (i + 20)
  characteristic := UInt8.ofNat (leVal p (i + 18) 1)
  filename := (p.drop (i + 38 + useLengthAt p i)).take (nameLengthAt p i)

theorem decodeFileIdentifier_eq {size : Nat} (h : i + size ≤ p.length) :
    decodeFileIdentifier p i size =
      .ok (if fidSize p i ≤ size then some (fidAt p i, padded (fidSize p i)) else none) := by
  have hname : nameLengthAt p i < 2 ^ 8 := leVal_lt p (i + 19) 1
  have huse : useLengthAt p i < 2 ^ 16 := leVal_lt p (i + 36) 2
  have hn : (UInt32.ofNat (nameLengthAt p i)).toNat = nameLengthAt p i := by
    rw [UInt32.toNat_ofNat', Nat.mod_eq_of_lt (by omega)]
  have hu : (UInt32.ofNat (useLengthAt p i)).toNat = useLengthAt p i := by
    rw [UInt32.toNat_ofNat', Nat.mod_eq_of_lt (by omega)]
  have hchar : (UInt32.ofNat (leVal p (i + 18) 1)).toUInt8 = UInt8.ofNat (leVal p (i + 18) 1) := by
    apply UInt8.toNat_inj.mp
    simp only [UInt32.toNat_toUInt8, UInt32.toNat_ofNat', UInt8.toNat_ofNat']
    omega
  unfold decodeFileIdentifier
  by_cases h38 : size < 38
  · rw [if_pos h38, if_neg (by unfold fidSize; omega)]
  · rw [if_neg h38, getU8_eq (by omega), getU8_eq (by omega), decodeLongAd_eq (by omega),
      getU16_eq (by omega)]
    simp only [Res.ok_bind, Res.pure_def]
    rw [← nameLengthAt, ← useLengthAt, hn, hu, hchar]
    by_cases hfit : fidSize p i ≤ size
    · have hslice := slice_eq (p := p) (i := i + 38 + useLengthAt p i) (n := nameLengthAt p i)
        (by unfold fidSize at hfit; omega)
      have hpad : padded (fidSize p i) = 4 * ((38 + nameLengthAt p i + useLengthAt p i + 3) / 4) := by
        unfold padded fidSize
        omega
      have hlen : (fidAt p i).filename.length ≤ nameLengthAt p i := List.length_take_le _ _
      rw [if_neg (by unfold fidSize at hfit; omega), if_pos hfit, hpad]
      by_cases hzero : UInt32.ofNat (nameLengthAt p i) = 0
      · have h0 : nameLengthAt p i = 0 := by rw [← hn, hzero]; rfl
        have hempty : (fidAt p i).filename = [] := by
          unfold fidAt
          rw [h0, List.take_zero]
        rw [if_pos hzero, if_neg (by simp), ← hempty]
        rfl
      · rw [if_neg hzero, hslice, Res.ok_bind]
        exact if_neg (show ¬ 256 ≤ (fidAt p i).filename.length by omega)
    · rw [if_pos (by unfold fidSize at hfit; omega), if_neg hfit]

end

/-! ## Directory entries -/

/-- The entry an identifier adds to a directory. -/
def listedEntry (fid : FileIdentifier) : Option UdfFileIdentifier :=
  if fid.characteristic &&& charFlagParent ≠ 0 ∨ fid.filename = [] then none
  else
    match udfCs0ToMutf8 fid.filename with
    | .ok (some name) =>
      if name = [] ∨ name.head? = some 0 then none
      else some { filename := name, icb := fid.icb, characteristic := fid.characteristic }
    | _ => none

theorem dirEntryOf_eq (fid : FileIdentifier) : dirEntryOf fid = .ok (listedEntry fid) := by
  unfold dirEntryOf listedEntry
  by_cases hparent : fid.characteristic &&& charFlagParent ≠ 0
  · rw [if_pos hparent, if_pos (.inl hparent)]
  · rw [if_neg hparent]
    by_cases hname : fid.filename = []
    · rw [if_pos (by simp [hname]), if_pos (.inr hname)]
    · have hpos := List.length_pos_iff.mpr hname
      rw [if_neg (by omega), if_neg (by simp [hname, hparent])]
      obtain ⟨r, hr⟩ := udfCs0ToMutf8_ok fid.filename
      rw [hr, Res.ok_bind]
      cases r with
      | none => rfl
      | some name => exact (apply_ite Except.ok _ _ _).symm

/-! ## The loop -/

/-- With fuel for the bytes left, the loop of `_parse_dir_file` ends. -/
theorem parseDirLoop_ok {data : Bytes} {length : Nat} (hlen : length ≤ data.length) :
    ∀ (fuel p : Nat) (dir : List UdfFileIdentifier), 1 ≤ fuel → length - p ≤ fuel →
      ∃ r, parseDirLoop data length fuel p dir = .ok r := by
  intro fuel
  induction fuel with
  | zero =>
    intro p dir h
    omega
  | succ fuel ih =>
    intro p dir _ hfuel
    rw [parseDirLoop]
    by_cases hp : p + 16 < length
    · rw [if_neg (not_not_intro hp)]
      split
      · exact ⟨_, rfl⟩
      · rw [decodeDescriptorTag_eq (by omega), Res.ok_bind]
        split
        · exact ⟨_, rfl⟩
        · rw [decodeFileIdentifier_eq (by omega), Res.ok_bind]
          split
          · exact ⟨_, rfl⟩
          · rename_i fid used hfid
            have hused : 38 ≤ used := by
              split at hfid
              · cases hfid
                have := le_padded (fidSize data p)
                unfold fidSize at this ⊢
                omega
              · cases hfid
            rw [dirEntryOf_eq, Res.ok_bind]
            split
            · exact ih _ _ (by omega) (by omega)
            · exact ih _ _ (by omega) (by omega)
    · rw [if_pos hp]
      exact ⟨_, rfl⟩

theorem parseDirFile_ok {data : Bytes} {length : UInt32} (hlen : length.toNat ≤ data.length)
    (dir : List UdfFileIdentifier) : ∃ r, parseDirFile data length dir = .ok r := by
  unfold parseDirFile
  by_cases h16 : length < 16
  · rw [if_pos h16]
    exact ⟨_, rfl⟩
  · have hge := UInt32.le_iff_toNat_le.mp (UInt32.not_lt.mp h16)
    have hge' : 16 ≤ length.toNat := hge
    rw [if_neg h16]
    exact parseDirLoop_ok hlen _ _ _ (by omega) (by omega)

end UdfRead
