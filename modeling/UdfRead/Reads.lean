import UdfRead.Lib.Log
import UdfRead.Metadata

/-!
# UdfRead.Reads

The blocks of the medium that reading metadata asks the input for. Keeping a log of them does not
change what is read.
-/

namespace UdfRead

open CModel

variable {σ : Type}

/-- The input, with a log of the blocks it is asked for. -/
def BlockInput.logged (I : BlockInput σ) : BlockInput (σ × List UInt32) where
  read lba nblocks flags s :=
    let (t, s') := I.read lba nblocks flags s.1
    (t, (s', s.2 ++ [lba]))
  size := I.size.map fun size s =>
    let (n, s') := size s.1
    (n, (s', s.2))
  count_le lba nblocks flags s := I.count_le lba nblocks flags s.1

/-- Block `lba` of the medium is logical block `x` of the partition, in one of its two copies. -/
def IsCopy (p : Partition) (x lba : UInt32) : Prop :=
  lba = p.lba + x ∨ p.mirrorLba ≠ 0 ∧ lba = p.mirrorLba + x

section

variable (I : BlockInput σ) {p : Partition} {part : UdfPartitions} {loc : LongAd} {R : UInt32 → Prop}

theorem readBlock_addsFirst (lba : UInt32) : Proc.AddsFirst (I.logged.readBlock lba) lba :=
  fun _ _ => ⟨_, _, [], rfl⟩

theorem readBlock_adds {lba : UInt32} (h : R lba) : Proc.Adds (I.logged.readBlock lba) R := by
  intro s log a s' log' hrun
  cases hrun
  exact ⟨[lba], rfl, by simpa using h⟩

theorem readDescriptorBlock_adds {lba : UInt32} (h : R lba) :
    Proc.Adds (I.logged.readDescriptorBlock lba) R := by
  refine (readBlock_adds I h).bind fun r => ?_
  cases r with
  | none => exact Proc.adds_pure _
  | some buf => exact (Proc.adds_ofRes _).bind fun _ => Proc.adds_pure _

theorem readFirst_adds (h : ∀ lba, IsCopy p loc.lba lba → R lba) :
    Proc.Adds (readFirst I.logged p loc) R := by
  refine (readDescriptorBlock_adds I (h _ (.inl rfl))).bind fun r => ?_
  show Proc.Adds (if r.1 = .invalid ∧ p.mirrorLba ≠ 0 then _ else pure (r.1, r.2)) _
  split
  · rename_i hmirror
    exact readDescriptorBlock_adds I (h _ (.inr ⟨hmirror.2, rfl⟩))
  · exact Proc.adds_pure _

theorem readFollowing_adds (i : UInt32) (h : ∀ lba, IsCopy p (loc.lba + i) lba → R lba) :
    Proc.Adds (readFollowing I.logged p loc i) R := by
  refine (readBlock_adds I (h _ (.inl (UInt32.add_assoc ..)))).bind fun r => ?_
  cases r with
  | some buf => exact Proc.adds_pure _
  | none =>
    show Proc.Adds (if p.mirrorLba ≠ 0 then _ else pure none) _
    split
    · rename_i hmirror
      exact readBlock_adds I (h _ (.inr ⟨hmirror, UInt32.add_assoc ..⟩))
    · exact Proc.adds_pure _

theorem readFollowingLoop_adds (n : Nat) (i : UInt32) (buf : Bytes)
    (h : ∀ k < n, ∀ lba, IsCopy p (loc.lba + (i + UInt32.ofNat k)) lba → R lba) :
    Proc.Adds (readFollowingLoop I.logged p loc n i buf) R := by
  induction n generalizing i buf with
  | zero => exact Proc.adds_pure _
  | succ n ih =>
    have hi := h 0 (Nat.succ_pos n)
    rw [add_ofNat_zero] at hi
    refine (readFollowing_adds I i hi).bind fun r => ?_
    cases r with
    | none => exact Proc.adds_pure _
    | some block =>
      refine ih (i + 1) (buf ++ block) fun k hk lba => ?_
      rw [add_one_ofNat]
      exact h (k + 1) (Nat.succ_lt_succ hk) lba

/-- A read asks for copies of its logical blocks. -/
theorem readMetadataBlocks_adds
    (h : ∀ p k lba, partitionOf part loc.partition = some p → k ≤ ((loc.length - 1) / 2048).toNat →
      IsCopy p (loc.lba + UInt32.ofNat k) lba → R lba) :
    Proc.Adds (readMetadataBlocks I.logged part loc) R := by
  rw [readMetadataBlocks]
  cases hp : partitionOf part loc.partition with
  | none => exact Proc.adds_pure _
  | some p =>
    have hfirst := h p 0
    rw [add_ofNat_zero] at hfirst
    refine (readFirst_adds I fun lba => hfirst lba hp (Nat.zero_le _)).bind fun r => ?_
    obtain ⟨tag, buf⟩ := r
    by_cases htag : tag = .invalid
    · simp only [htag, if_true]
      exact Proc.adds_pure _
    · simp only [htag, if_false]
      refine (readFollowingLoop_adds I _ _ _ fun k hk lba hcopy => ?_).bind fun r' => ?_
      · refine h p (k + 1) lba hp hk ?_
        rwa [UInt32.ofNat_add, UInt32.add_comm (UInt32.ofNat k)]
      · cases r' with
        | none => exact Proc.adds_pure _
        | some buf' => exact Proc.adds_pure _

/-! ## Without the log -/

theorem readBlock_forgets (lba : UInt32) :
    Proc.Forgets (I.logged.readBlock lba) (I.readBlock lba) := by
  intro s log a s' log' h
  cases h
  rfl

theorem readDescriptorBlock_forgets (lba : UInt32) :
    Proc.Forgets (I.logged.readDescriptorBlock lba) (I.readDescriptorBlock lba) := by
  refine (readBlock_forgets I lba).bind fun r => ?_
  cases r with
  | none => exact Proc.forgets_pure _
  | some buf => exact (Proc.forgets_ofRes _).bind fun _ => Proc.forgets_pure _

theorem readFirst_forgets (p : Partition) (loc : LongAd) :
    Proc.Forgets (readFirst I.logged p loc) (readFirst I p loc) := by
  refine (readDescriptorBlock_forgets I _).bind fun r => ?_
  obtain ⟨tag, buf⟩ := r
  simp only
  split
  · exact readDescriptorBlock_forgets I _
  · exact Proc.forgets_pure _

theorem readFollowing_forgets (p : Partition) (loc : LongAd) (i : UInt32) :
    Proc.Forgets (readFollowing I.logged p loc i) (readFollowing I p loc i) := by
  refine (readBlock_forgets I _).bind fun r => ?_
  cases r with
  | some buf => exact Proc.forgets_pure _
  | none =>
    simp only
    split
    · exact readBlock_forgets I _
    · exact Proc.forgets_pure _

theorem readFollowingLoop_forgets (p : Partition) (loc : LongAd) (n : Nat) (i : UInt32)
    (buf : Bytes) :
    Proc.Forgets (readFollowingLoop I.logged p loc n i buf) (readFollowingLoop I p loc n i buf) := by
  induction n generalizing i buf with
  | zero => exact Proc.forgets_pure _
  | succ n ih =>
    refine (readFollowing_forgets I p loc i).bind fun r => ?_
    cases r with
    | none => exact Proc.forgets_pure _
    | some block => exact ih _ _

theorem readMetadataBlocks_forgets (part : UdfPartitions) (loc : LongAd) :
    Proc.Forgets (readMetadataBlocks I.logged part loc) (readMetadataBlocks I part loc) := by
  rw [readMetadataBlocks, readMetadataBlocks]
  cases partitionOf part loc.partition with
  | none => exact Proc.forgets_pure _
  | some p =>
    refine (readFirst_forgets I p loc).bind fun r => ?_
    obtain ⟨tag, buf⟩ := r
    simp only
    split
    · exact Proc.forgets_pure _
    · refine (readFollowingLoop_forgets I p loc _ _ _).bind fun r' => ?_
      cases r' with
      | none => exact Proc.forgets_pure _
      | some buf' => exact Proc.forgets_pure _

/-! ## The first read -/

variable {I}

theorem readFollowing_addsFirst (i : UInt32) :
    Proc.AddsFirst (readFollowing I.logged p loc i) (p.lba + loc.lba + i) := by
  refine (readBlock_addsFirst I _).bind (R := fun _ => True) (fun r => ?_)
    (readFollowing_returns _ p loc i)
  cases r with
  | some buf => exact Proc.adds_pure _
  | none =>
    show Proc.Adds (if p.mirrorLba ≠ 0 then _ else pure none) _
    split
    · exact readBlock_adds I trivial
    · exact Proc.adds_pure _

theorem readDescriptorBlock_addsFirst (lba : UInt32) :
    Proc.AddsFirst (I.logged.readDescriptorBlock lba) lba := by
  refine (readBlock_addsFirst I _).bind (R := fun _ => True) (fun r => ?_)
    (readDescriptorBlock_returns _ lba)
  cases r with
  | none => exact Proc.adds_pure _
  | some buf => exact (Proc.adds_ofRes _).bind fun _ => Proc.adds_pure _

theorem readFirst_addsFirst :
    Proc.AddsFirst (readFirst I.logged p loc) (p.lba + loc.lba) := by
  refine (readDescriptorBlock_addsFirst _).bind (R := fun _ => True) (fun r => ?_)
    (readFirst_returns _ p loc)
  show Proc.Adds (if r.1 = .invalid ∧ p.mirrorLba ≠ 0 then _ else pure (r.1, r.2)) _
  split
  · exact readDescriptorBlock_adds I trivial
  · exact Proc.adds_pure _

/-- A read begins with the primary copy of its first logical block. -/
theorem readMetadataBlocks_addsFirst (hp : partitionOf part loc.partition = some p) :
    Proc.AddsFirst (readMetadataBlocks I.logged part loc) (p.lba + loc.lba) := by
  have hret := readMetadataBlocks_returns I.logged part loc
  rw [readMetadataBlocks] at hret ⊢
  simp only [hp] at hret ⊢
  refine readFirst_addsFirst.bind (R := fun _ => True) (fun r => ?_) hret
  obtain ⟨tag, buf⟩ := r
  by_cases htag : tag = .invalid
  · simp only [htag, if_true]
    exact Proc.adds_pure _
  · simp only [htag, if_false]
    refine (readFollowingLoop_adds I _ _ _ fun _ _ _ _ => trivial).bind fun r' => ?_
    cases r' with
    | none => exact Proc.adds_pure _
    | some buf' => exact Proc.adds_pure _

end

end UdfRead
