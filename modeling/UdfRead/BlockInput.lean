import UdfRead.Ecma167
import UdfRead.Lib.Mem

/-!
# UdfRead.BlockInput

`blockinput.h`: the callbacks through which the library reads an image. The hidden state of the
input has type `σ`, so an input may answer equal requests differently. One block has
`UDF_BLOCK_SIZE` = 2048 bytes throughout.
-/

namespace UdfRead

open CModel

/-- What a `read` callback leaves behind: its return value, and the bytes the buffer holds. -/
structure Transfer where
  count : Int
  data : Nat → UInt8

/-- `struct udfread_block_input`. A callback never reports more blocks than it was asked for. -/
structure BlockInput (σ : Type) where
  read : (lba nblocks : UInt32) → (flags : Int) → σ → Transfer × σ
  size : Option (σ → UInt32 × σ)
  count_le : ∀ lba nblocks flags s, (read lba nblocks flags s).1.count ≤ nblocks.toNat

/-- The bytes of one block. -/
def blockBytes (data : Nat → UInt8) : Bytes := List.ofFn fun k : Fin 2048 => data k

@[simp] theorem blockBytes_length (data : Nat → UInt8) : (blockBytes data).length = 2048 :=
  List.length_ofFn

namespace BlockInput

variable {σ : Type}

/-- `input->read(input, lba, buf, 1, 0) == 1`: the block, when that is what the call returned. -/
def readBlock (I : BlockInput σ) (lba : UInt32) : Proc σ (Option Bytes) := fun s =>
  let (t, s') := I.read lba 1 0 s
  .ok (if t.count = 1 then some (blockBytes t.data) else none, s')

/-- `_read_blocks`: the number of blocks read, and what the call stored (nothing when the request
is empty or negative as an `int`, and the callback is not called). -/
def readBlocks (I : BlockInput σ) (lba nblocks : UInt32) (flags : Int) :
    Proc σ (UInt32 × Option (Nat → UInt8)) := fun s =>
  if nblocks = 0 ∨ 2 ^ 31 ≤ nblocks.toNat then .ok ((0, none), s)
  else
    let (t, s') := I.read lba nblocks flags s
    .ok ((if t.count < 0 then 0 else UInt32.ofNat t.count.toNat, some t.data), s')

/-- `_read_descriptor_block`: the tag of the block and the block, or the tag `invalid`. -/
def readDescriptorBlock (I : BlockInput σ) (lba : UInt32) :
    Proc σ (TagIdentifier × Bytes) := do
  match ← I.readBlock lba with
  | some buf => return (← Proc.ofRes (decodeDescriptorTag buf 0), buf)
  | none => return (.invalid, [])

end BlockInput

/-! ## What an input may do -/

/-- The content of each block of the medium. -/
abbrev Media := UInt32 → Nat → UInt8

namespace BlockInput

variable {σ : Type}

/-- Whatever the input serves is the content of the medium, and nothing behind the last block
number is served. A request may be served in part or fail, and may do so differently next time. -/
def Serves (I : BlockInput σ) (media : Media) : Prop :=
  ∀ lba nblocks flags s (k : Nat), (k : Int) < (I.read lba nblocks flags s).1.count →
    lba.toNat + k < 2 ^ 32 ∧ ∀ o, o < 2048 →
      (I.read lba nblocks flags s).1.data (2048 * k + o) = media (lba + UInt32.ofNat k) o

/-- Every request is served, perhaps in part. -/
def NeverFails (I : BlockInput σ) : Prop :=
  ∀ lba nblocks flags s, nblocks ≠ 0 → 1 ≤ (I.read lba nblocks flags s).1.count

theorem readBlocks_serves {I : BlockInput σ} {media : Media} (hI : I.Serves media)
    (lba : UInt32) {nblocks : UInt32} (hn : nblocks ≠ 0) (hn' : nblocks.toNat < 2 ^ 31) (flags : Int)
    (s : σ) :
    ∃ got data s', I.readBlocks lba nblocks flags s = .ok ((got, some data), s') ∧
      got.toNat ≤ nblocks.toNat ∧ (I.NeverFails → 1 ≤ got.toNat) ∧
      (1 ≤ got.toNat → (I.read lba nblocks flags s).1 = ⟨got.toNat, data⟩) ∧
      ∀ k, k < got.toNat → lba.toNat + k < 2 ^ 32 ∧ ∀ o, o < 2048 →
        data (2048 * k + o) = media (lba + UInt32.ofNat k) o := by
  have hle := I.count_le lba nblocks flags s
  have hs := hI lba nblocks flags s
  have hf : I.NeverFails → 1 ≤ (I.read lba nblocks flags s).1.count := fun h => h _ _ _ _ hn
  unfold readBlocks
  rw [if_neg (by simp only [hn, false_or]; omega)]
  cases hr : I.read lba nblocks flags s with
  | mk t s' =>
    rw [hr] at hle hs hf
    by_cases hc : t.count < 0
    · refine ⟨0, t.data, s', by simp [hc], by simp, fun h => ?_, by simp, fun k hk => ?_⟩
      · have := hf h; simp at this; omega
      · simp at hk
    · have hg : (UInt32.ofNat t.count.toNat).toNat = t.count.toNat := by
        rw [UInt32.toNat_ofNat', Nat.mod_eq_of_lt]
        simp at hle; omega
      refine ⟨UInt32.ofNat t.count.toNat, t.data, s', by simp [hc], ?_, fun h => ?_, fun _ => ?_,
        fun k hk => ?_⟩
      · rw [hg]; simp at hle; omega
      · have := hf h; simp at this; omega
      · rw [hg, Int.toNat_of_nonneg (by omega)]
      · exact hs k (by simp; omega)

end BlockInput

/-! ## Two inputs -/

/-- An input without state: every block is either always or never readable, and reads serve one
block at a time. `nblocks` is the answer of the `size` callback, if there is one. -/
def BlockInput.ofImage (image : UInt32 → Option (Nat → UInt8)) (nblocks : Option UInt32) :
    BlockInput Unit where
  read lba nblocks _ s :=
    match image lba with
    | some data => if nblocks = 0 then (⟨0, data⟩, s) else (⟨1, data⟩, s)
    | none => (⟨0, fun _ => 0⟩, s)
  size := nblocks.map fun n s => (n, s)
  count_le := by
    intro lba nblocks _ s
    cases image lba with
    | none => simp
    | some data =>
      by_cases h : nblocks = 0
      · simp [h]
      · have h0 : nblocks.toNat ≠ 0 := fun h' => h (UInt32.toNat_inj.mp h')
        simp only [h, if_false]
        omega

/-- An input that serves every request up to the last block of the medium. -/
def BlockInput.full (media : Media) : BlockInput Unit where
  read lba nblocks _ s :=
    (⟨(min nblocks.toNat (2 ^ 32 - lba.toNat) : Nat),
      fun x => media (lba + UInt32.ofNat (x / 2048)) (x % 2048)⟩, s)
  size := none
  count_le := by
    intro lba nblocks _ s
    simp only
    omega

theorem BlockInput.full_serves (media : Media) : (BlockInput.full media).Serves media := by
  intro lba nblocks flags s k hk
  have h : (k : Int) < (min nblocks.toNat (2 ^ 32 - lba.toNat) : Nat) := hk
  refine ⟨by omega, fun o ho => ?_⟩
  show media (lba + UInt32.ofNat ((2048 * k + o) / 2048)) ((2048 * k + o) % 2048) = _
  rw [show (2048 * k + o) / 2048 = k by omega, show (2048 * k + o) % 2048 = o by omega]

theorem BlockInput.full_neverFails (media : Media) : (BlockInput.full media).NeverFails := by
  intro lba nblocks flags s hn
  have hn' : nblocks.toNat ≠ 0 := fun h => hn (UInt32.toNat_inj.mp h)
  have hl := lba.toNat_lt
  show (1 : Int) ≤ (min nblocks.toNat (2 ^ 32 - lba.toNat) : Nat)
  omega

theorem BlockInput.ofImage_serves (media : Media) (nblocks : Option UInt32) :
    (BlockInput.ofImage (fun lba => some (media lba)) nblocks).Serves media := by
  intro lba n flags s k hk
  have hl := lba.toNat_lt
  by_cases hn : n = 0
  · simp [BlockInput.ofImage, hn] at hk
    omega
  · simp only [BlockInput.ofImage, hn, if_false] at hk ⊢
    obtain rfl : k = 0 := by omega
    exact ⟨by omega, fun o _ => by simp⟩

end UdfRead
