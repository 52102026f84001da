import UdfRead.FileLba

/-!
# UdfRead.ReadBlocks

`udfread_read_blocks` over an input that serves the medium's content, in full or in part.

* `Turn`: everything one turn of the loop can do (`readBlocksLoop_turn`).
* `readBlocksLoop_spec`: as long as the blocks that can be counted stay below block number 2^32
  and below 2^21 blocks of the request (`Stretch`), the loop stores file block `fileBlock + k` at
  byte `2048 * k` of the buffer.
-/

namespace UdfRead

open CModel

section

variable {σ : Type}

/-- The blocks of a descriptor are few enough for an `int`. -/
theorem adSize_lt (ad : LongAd) : (adSize ad).toNat < 2 ^ 31 := by
  have : (adSize ad).toNat = (ad.length + 2048 - 1).toNat / 2048 := by
    rw [adSize, UInt32.toNat_div]; rfl
  have := (ad.length + 2048 - 1).toNat_lt
  omega

theorem fileLba_lt {f : UdfFile} {b : UInt32} (h : (fileLba f b).1 ≠ 0) :
    (fileLba f b).2.toNat < 2 ^ 31 := by
  obtain ⟨ad, k, hl, hb, ht⟩ := fileLba_mapped h
  have hs : adSlots ad < 2 ^ 31 := adSize_lt ad
  rw [hb, ht, adSize_sub_toNat (Extents.locate_lt hl)]
  omega

/-- The content of byte `o` of a file block: of the medium's block, or zero when it has none. -/
def blockByte (media : Media) (f : UdfFile) (b : UInt32) (o : Nat) : UInt8 :=
  if udfreadFileLba f b = 0 then 0 else media (udfreadFileLba f b) o

/-- The recorded length, which the code reads as signed, leaves room for the size of a block: the sum
for the block count does not overflow. -/
def LengthFits (f : UdfFile) : Prop := signed64 f.fe.length + 2048 < 2 ^ 63

/-- The block is mapped, or its number lies below the block count of the recorded length, cut off to
32 bits, and it reads as zeros. -/
def Readable (f : UdfFile) (b : UInt32) : Prop :=
  (fileLba f b).1 ≠ 0 ∨
    (LengthFits f ∧ (b.toNat : Int) < (signed64 f.fe.length + 2047).tdiv 2048 % 2 ^ 32)

theorem fileBlocks_eq_ok {f : UdfFile} {n : UInt32} : fileBlocks f = .ok n ↔
    LengthFits f ∧ (n.toNat : Int) = (signed64 f.fe.length + 2047).tdiv 2048 % 2 ^ 32 := by
  have hlow := neg_le_signed64 f.fe.length
  unfold fileBlocks addSigned64 udfreadFileSize LengthFits
  by_cases hfits : signed64 f.fe.length + 2048 < 2 ^ 63
  · rw [if_pos ⟨by omega, hfits⟩, Res.ok_bind,
      show signed64 f.fe.length + 2048 - 1 = signed64 f.fe.length + 2047 by omega]
    generalize hc : (signed64 f.fe.length + 2047).tdiv 2048 % 2 ^ 32 = c
    have hval : (UInt32.ofNat c.toNat).toNat = c.toNat := by
      rw [UInt32.toNat_ofNat', Nat.mod_eq_of_lt (by omega)]
    constructor
    · rintro h
      cases h
      exact ⟨hfits, by rw [hval]; omega⟩
    · rintro ⟨-, hn⟩
      exact congrArg Except.ok (UInt32.toNat_inj.mp (by rw [hval]; omega))
  · rw [if_neg fun h => hfits h.2]
    exact ⟨fun h => (by cases h), fun h => absurd h.1 hfits⟩

theorem lengthFits_iff {f : UdfFile} : LengthFits f ↔ ∃ n, fileBlocks f = .ok n := by
  refine ⟨fun h => ?_, fun ⟨n, hn⟩ => (fileBlocks_eq_ok.mp hn).1⟩
  refine ⟨UInt32.ofNat ((signed64 f.fe.length + 2047).tdiv 2048 % 2 ^ 32).toNat,
    fileBlocks_eq_ok.mpr ⟨h, ?_⟩⟩
  rw [UInt32.toNat_ofNat', Nat.mod_eq_of_lt (by omega)]
  omega

/-- `Readable` is the test the loop makes. -/
theorem readable_iff {f : UdfFile} {b : UInt32} :
    Readable f b ↔ (fileLba f b).1 ≠ 0 ∨ ∃ n, fileBlocks f = .ok n ∧ b < n := by
  refine or_congr_right ⟨fun ⟨hfits, hlt⟩ => ?_, fun ⟨n, hn, hlt⟩ => ?_⟩
  · obtain ⟨n, hn⟩ := lengthFits_iff.mp hfits
    refine ⟨n, hn, UInt32.lt_iff_toNat_lt.mpr ?_⟩
    have := (fileBlocks_eq_ok.mp hn).2
    omega
  · obtain ⟨hfits, hval⟩ := fileBlocks_eq_ok.mp hn
    have := UInt32.lt_iff_toNat_lt.mp hlt
    exact ⟨hfits, by omega⟩

section Loop

variable {I : BlockInput σ} {media : Media} {f : UdfFile} {buf : Nat}
  {fileBlock numBlocks : UInt32} {flags : Int}

/-- What a turn of the loop at block `i` does, with `run` blocks in the request to the input. -/
inductive Turn (I : BlockInput σ) (media : Media) (f : UdfFile) (buf : Nat)
    (fileBlock numBlocks : UInt32) (flags : Int) (fuel : Nat) (i : UInt32) (mem : Mem) (s : σ) :
    Except Trap ((UInt32 × Mem) × σ) → Prop where
  | overflow {t : Trap} : (fileLba f (fileBlock + i)).1 = 0 → fileBlocks f = .error t →
      Turn I media f buf fileBlock numBlocks flags fuel i mem s (.error t)
  | stop {n : UInt32} : (fileLba f (fileBlock + i)).1 = 0 → fileBlocks f = .ok n →
      ¬ fileBlock + i < n →
      Turn I media f buf fileBlock numBlocks flags fuel i mem s (.ok ((i, mem), s))
  | hole {n : UInt32} : (fileLba f (fileBlock + i)).1 = 0 → fileBlocks f = .ok n →
      fileBlock + i < n →
      Turn I media f buf fileBlock numBlocks flags fuel i mem s
        (readBlocksLoop I f buf fileBlock numBlocks flags fuel (i + 1)
          (mem.blit (buf + (2048 * i).toNat) 2048 fun _ => 0) s)
  | fail {run : Nat} {data : Nat → UInt8} {s' : σ} : (fileLba f (fileBlock + i)).1 ≠ 0 →
      ¬ I.NeverFails → i.toNat + run ≤ numBlocks.toNat →
      Turn I media f buf fileBlock numBlocks flags fuel i mem s
        (.ok ((i, mem.blit (buf + (2048 * i).toNat) (2048 * run) data), s'))
  | more {run : Nat} {got : UInt32} {data : Nat → UInt8} {s' : σ} :
      (fileLba f (fileBlock + i)).1 ≠ 0 →
      run = min (fileLba f (fileBlock + i)).2.toNat (numBlocks.toNat - i.toNat) →
      1 ≤ got.toNat → got.toNat ≤ run →
      (I.read (fileLba f (fileBlock + i)).1 (UInt32.ofNat run) flags s).1 = ⟨got.toNat, data⟩ →
      (∀ k, k < got.toNat → (fileLba f (fileBlock + i)).1.toNat + k < 2 ^ 32 ∧
        ∀ o, o < 2048 → data (2048 * k + o) =
          media ((fileLba f (fileBlock + i)).1 + UInt32.ofNat k) o) →
      Turn I media f buf fileBlock numBlocks flags fuel i mem s
        (readBlocksLoop I f buf fileBlock numBlocks flags fuel (i + got)
          (mem.blit (buf + (2048 * i).toNat) (2048 * run) data) s')

theorem readBlocksLoop_turn (hI : I.Serves media) {i : UInt32} (hi : i < numBlocks) (fuel : Nat)
    (mem : Mem) (s : σ) :
    Turn I media f buf fileBlock numBlocks flags fuel i mem s
      (readBlocksLoop I f buf fileBlock numBlocks flags (fuel + 1) i mem s) := by
  have hin := UInt32.lt_iff_toNat_lt.mp hi
  rw [readBlocksLoop, if_neg (not_not_intro hi)]
  simp only []
  by_cases hl : (fileLba f (fileBlock + i)).1 = 0
  · rw [if_pos hl]
    cases hb : fileBlocks f with
    | error t => exact .overflow hl hb
    | ok n =>
      by_cases hlt : fileBlock + i < n
      · have : (Proc.ofRes (Except.ok n) : Proc σ UInt32) s = .ok (n, s) := rfl
        rw [Proc.bind_of_ok this, if_pos hlt]
        exact .hole hl hb hlt
      · have : (Proc.ofRes (Except.ok n) : Proc σ UInt32) s = .ok (n, s) := rfl
        rw [Proc.bind_of_ok this, if_neg hlt]
        exact .stop hl hb hlt
  · rw [if_neg hl]
    have hrun : (min (fileLba f (fileBlock + i)).2 (numBlocks - i)).toNat =
        min (fileLba f (fileBlock + i)).2.toNat (numBlocks.toNat - i.toNat) := by
      rw [UInt32.toNat_min, toNat_sub_of_le (le_of_lt hin)]
    have hpos := fileLba_pos hl
    have hlt := fileLba_lt hl
    have hne : min (fileLba f (fileBlock + i)).2 (numBlocks - i) ≠ 0 := by
      intro h
      have := congrArg UInt32.toNat h
      rw [hrun] at this
      simp at this
      omega
    obtain ⟨got, data, s', hr, hle, hnf, hc, hd⟩ := BlockInput.readBlocks_serves hI
      (fileLba f (fileBlock + i)).1 hne (by rw [hrun]; omega) flags s
    rw [Proc.bind_of_ok hr, hrun]
    rw [hrun] at hle
    by_cases hg : got < 1
    · have hg' : ¬ 1 ≤ got.toNat := by
        have := UInt32.lt_iff_toNat_lt.mp hg
        simpa using this
      simp only [hg, if_true]
      exact .fail hl (fun h => hg' (hnf h)) (by omega)
    · have hg' : 1 ≤ got.toNat := by
        by_contra hc
        exact hg (UInt32.lt_iff_toNat_lt.mpr (by simpa using hc))
      simp only [hg, if_false]
      refine .more hl rfl hg' hle ?_ hd
      rw [← hrun, UInt32.ofNat_toNat]
      exact hc hg'

/-! ## Requests that fit -/

/-- Block number `c` can be counted as read. Number 2^32, which wraps to 0 in the code, can be when
block 0 is readable, or when the descriptor of block 2^32 - 1 goes on behind it. -/
def Countable (f : UdfFile) (c : Nat) : Prop :=
  if c < 2 ^ 32 then Readable f (UInt32.ofNat c)
  else Readable f 0 ∨
    ((fileLba f 0xffffffff).1 ≠ 0 ∧ (fileLba f 0xffffffff).1.toNat + 1 < 2 ^ 32 ∧
      1 < (fileLba f 0xffffffff).2.toNat)

/-- The stretch of countable blocks from `fileBlock` on ends (or the request does) before block
number 2^32 and within 2^21 blocks; and where a block of the request is not mapped, the length is
one for which the signed sum of `file_blocks` does not overflow. -/
structure BlocksFit (f : UdfFile) (fileBlock numBlocks : UInt32) : Prop where
  stretch : ∀ k, k < numBlocks.toNat → (∀ j, j ≤ k → Countable f (fileBlock.toNat + j)) →
    k < 2 ^ 21 ∧ fileBlock.toNat + k < 2 ^ 32
  noOverflow : ∀ k, k < numBlocks.toNat → (fileLba f (fileBlock + UInt32.ofNat k)).1 = 0 →
    LengthFits f

/-- The state after the blocks `i` up to `r` of a request were read. -/
structure BlocksRead (media : Media) (f : UdfFile) (buf : Nat) (fileBlock numBlocks : UInt32)
    (i r : Nat) (mem mem' : Mem) : Prop where
  le : i ≤ r
  le_num : r ≤ numBlocks.toNat
  counted : ∀ j, j < r → Countable f (fileBlock.toNat + j)
  bytes : ∀ k, i ≤ k → k < r → fileBlock.toNat + k < 2 ^ 32 ∧ ∀ o, o < 2048 →
    mem' (buf + 2048 * k + o) = blockByte media f (fileBlock + UInt32.ofNat k) o
  frame : ∀ x, x < buf + 2048 * i ∨ buf + 2048 * numBlocks.toNat ≤ x → mem' x = mem x

theorem ofNat_toNat_add (a : UInt32) (k : Nat) :
    UInt32.ofNat (a.toNat + k) = a + UInt32.ofNat k := by
  rw [UInt32.ofNat_add, UInt32.ofNat_toNat]

theorem countable_of_readable {k : Nat} (hle : fileBlock.toNat + k ≤ 2 ^ 32)
    (h : Readable f (fileBlock + UInt32.ofNat k)) : Countable f (fileBlock.toNat + k) := by
  unfold Countable
  split
  · rwa [ofNat_toNat_add]
  · have hz : fileBlock + UInt32.ofNat k = 0 := by
      rw [← ofNat_toNat_add, show fileBlock.toNat + k = 2 ^ 32 by omega]; rfl
    rw [hz] at h
    exact .inl h

/-- A served run is mapped block by block, and countable also where it passes the last number. -/
theorem run_readable {b : UInt32} (h : (fileLba f b).1 ≠ 0) {d : Nat}
    (hd : d < (fileLba f b).2.toNat) (hl : (fileLba f b).1.toNat + d < 2 ^ 32)
    (hb : b.toNat + d < 2 ^ 32) :
    (fileLba f (b + UInt32.ofNat d)).1 = (fileLba f b).1 + UInt32.ofNat d ∧
      (fileLba f (b + UInt32.ofNat d)).1 ≠ 0 := by
  have hr := fileLba_run h hd hb
  refine ⟨by rw [hr], ?_⟩
  rw [hr]
  intro hz
  have h0 := congrArg UInt32.toNat hz
  rw [UInt32.toNat_add, UInt32.toNat_ofNat'] at h0
  have hne : (fileLba f b).1.toNat ≠ 0 := fun h' => h (UInt32.toNat_inj.mp h')
  simp at h0
  omega

theorem run_countable {i : UInt32} {d : Nat} (h : (fileLba f (fileBlock + i)).1 ≠ 0)
    (hw : fileBlock.toNat + i.toNat < 2 ^ 32)
    (hd : d < (fileLba f (fileBlock + i)).2.toNat)
    (hl : (fileLba f (fileBlock + i)).1.toNat + d < 2 ^ 32)
    (hle : fileBlock.toNat + (i.toNat + d) ≤ 2 ^ 32) :
    Countable f (fileBlock.toNat + (i.toNat + d)) := by
  have hb : (fileBlock + i).toNat = fileBlock.toNat + i.toNat := by
    rw [UInt32.toNat_add, Nat.mod_eq_of_lt hw]
  by_cases hlt : fileBlock.toNat + (i.toNat + d) < 2 ^ 32
  · apply countable_of_readable (le_of_lt hlt)
    rw [UInt32.ofNat_add, UInt32.ofNat_toNat, ← UInt32.add_assoc]
    exact .inl (run_readable h hd hl (by omega)).2
  · -- the run passes block number 2^32: its block 2^32 - 1 has a successor
    unfold Countable
    rw [if_neg hlt]
    have hlast : fileBlock + i + UInt32.ofNat (d - 1) = 0xffffffff := by
      apply UInt32.toNat_inj.mp
      rw [UInt32.toNat_add, hb, UInt32.toNat_ofNat']
      show _ = 2 ^ 32 - 1
      omega
    have hr := run_readable h (d := d - 1) (by omega) (by omega) (by omega)
    have hr2 := fileLba_run h (j := d - 1) (by omega) (by omega)
    rw [hlast] at hr hr2
    refine .inr ⟨hr.2, ?_, ?_⟩
    · rw [hr.1, UInt32.toNat_add, UInt32.toNat_ofNat']
      omega
    · have hdn : (UInt32.ofNat (d - 1)).toNat = d - 1 := by
        rw [UInt32.toNat_ofNat', Nat.mod_eq_of_lt (by omega)]
      rw [hr2, toNat_sub_of_le (by rw [hdn]; omega), hdn]
      omega

/-! ## Runs of the loop -/

/-- Induction over a run of the loop that returns: one case for each thing a turn can do. -/
theorem readBlocksLoop_ind (hI : I.Serves media) {P : UInt32 → Mem → UInt32 → Mem → Prop}
    (done : ∀ mem, P numBlocks mem numBlocks mem)
    (stop : ∀ i mem n, i < numBlocks → (fileLba f (fileBlock + i)).1 = 0 → fileBlocks f = .ok n →
      ¬ fileBlock + i < n → P i mem i mem)
    (hole : ∀ i mem r mem' n, i < numBlocks → (fileLba f (fileBlock + i)).1 = 0 →
      fileBlocks f = .ok n → fileBlock + i < n →
      P (i + 1) (mem.blit (buf + (2048 * i).toNat) 2048 fun _ => 0) r mem' → P i mem r mem')
    (fail : ∀ i mem run data, i < numBlocks → (fileLba f (fileBlock + i)).1 ≠ 0 →
      ¬ I.NeverFails → i.toNat + run ≤ numBlocks.toNat →
      P i mem i (mem.blit (buf + (2048 * i).toNat) (2048 * run) data))
    (more : ∀ i mem run got data s r mem', i < numBlocks →
      (fileLba f (fileBlock + i)).1 ≠ 0 →
      run = min (fileLba f (fileBlock + i)).2.toNat (numBlocks.toNat - i.toNat) →
      1 ≤ got.toNat → got.toNat ≤ run →
      (I.read (fileLba f (fileBlock + i)).1 (UInt32.ofNat run) flags s).1 = ⟨got.toNat, data⟩ →
      (∀ k, k < got.toNat → (fileLba f (fileBlock + i)).1.toNat + k < 2 ^ 32 ∧
        ∀ o, o < 2048 → data (2048 * k + o) =
          media ((fileLba f (fileBlock + i)).1 + UInt32.ofNat k) o) →
      P (i + got) (mem.blit (buf + (2048 * i).toNat) (2048 * run) data) r mem' → P i mem r mem') :
    ∀ (fuel : Nat) (i : UInt32) (mem : Mem) (s : σ) (r : UInt32) (mem' : Mem) (s' : σ),
      i.toNat ≤ numBlocks.toNat →
      readBlocksLoop I f buf fileBlock numBlocks flags fuel i mem s = .ok ((r, mem'), s') →
      P i mem r mem' := by
  have hdone : ∀ (i : UInt32) (mem : Mem) (r : UInt32) (mem' : Mem), ¬ i < numBlocks →
      i.toNat ≤ numBlocks.toNat → (i, mem) = (r, mem') → P i mem r mem' := by
    intro i mem r mem' hi hle h
    cases h
    obtain rfl : i = numBlocks := by
      apply UInt32.toNat_inj.mp
      have : ¬ i.toNat < numBlocks.toNat := fun hc => hi (UInt32.lt_iff_toNat_lt.mpr hc)
      omega
    exact done mem
  intro fuel
  induction fuel with
  | zero =>
    intro i mem s r mem' s' hle h
    rw [readBlocksLoop] at h
    split at h
    · cases h
    · rename_i hi
      cases h
      exact hdone i mem i mem hi hle rfl
  | succ fuel ih =>
    intro i mem s r mem' s' hle h
    by_cases hi : i < numBlocks
    · have hin := UInt32.lt_iff_toNat_lt.mp hi
      have ht : Turn I media f buf fileBlock numBlocks flags fuel i mem s _ :=
        readBlocksLoop_turn hI hi fuel mem s
      generalize hx : readBlocksLoop I f buf fileBlock numBlocks flags (fuel + 1) i mem s = x at h ht
      cases ht with
      | overflow hl hb => cases h
      | stop hl hb hlt => cases h; exact stop i mem _ hi hl hb hlt
      | hole hl hb hlt =>
        have h1 : (i + 1).toNat = i.toNat + 1 := by
          have := numBlocks.toNat_lt
          rw [UInt32.toNat_add]; simp; omega
        exact hole i mem r mem' _ hi hl hb hlt (ih _ _ _ _ _ _ (by omega) h)
      | fail hl hn hrun => cases h; exact fail i mem _ _ hi hl hn hrun
      | more hl hrun hg hgr hc hd =>
        rename_i run got data s1
        have h1 : (i + got).toNat = i.toNat + got.toNat := by
          have := numBlocks.toNat_lt
          rw [UInt32.toNat_add]; omega
        exact more i mem run got data s r mem' hi hl hrun hg hgr hc hd
          (ih _ _ _ _ _ _ (by omega) h)
    · rw [readBlocksLoop, if_pos hi] at h
      cases h
      exact hdone i mem i mem hi hle rfl

/-! ## Requests that fit are read in place -/

theorem stretch_at (hfit : BlocksFit f fileBlock numBlocks) {i : UInt32} (hi : i < numBlocks)
    (hcount : ∀ j, j < i.toNat → Countable f (fileBlock.toNat + j))
    (hr : Readable f (fileBlock + i)) :
    i.toNat < 2 ^ 21 ∧ fileBlock.toNat + i.toNat < 2 ^ 32 := by
  have hin := UInt32.lt_iff_toNat_lt.mp hi
  have hle : fileBlock.toNat + i.toNat ≤ 2 ^ 32 := by
    rcases Nat.eq_zero_or_pos i.toNat with h0 | h0
    · have := fileBlock.toNat_lt
      omega
    · have := (hfit.stretch (i.toNat - 1) (by omega) fun j hj => hcount j (by omega)).2
      omega
  have hc : Countable f (fileBlock.toNat + i.toNat) :=
    countable_of_readable hle (by rwa [UInt32.ofNat_toNat])
  refine hfit.stretch i.toNat hin fun j hj => ?_
  rcases Nat.lt_or_eq_of_le hj with h | h
  · exact hcount j h
  · rwa [h]

/-- Every block of a served run keeps inside the stretch. -/
theorem stretch_run (hfit : BlocksFit f fileBlock numBlocks) {i : UInt32} {n : Nat}
    (hi : i < numBlocks) (hcount : ∀ j, j < i.toNat → Countable f (fileBlock.toNat + j))
    (hm : (fileLba f (fileBlock + i)).1 ≠ 0) (hn : n ≤ (fileLba f (fileBlock + i)).2.toNat)
    (hn' : i.toNat + n ≤ numBlocks.toNat)
    (hl : ∀ d, d < n → (fileLba f (fileBlock + i)).1.toNat + d < 2 ^ 32) :
    ∀ d, d < n → Countable f (fileBlock.toNat + (i.toNat + d)) ∧
      i.toNat + d < 2 ^ 21 ∧ fileBlock.toNat + (i.toNat + d) < 2 ^ 32 := by
  have hw := (stretch_at hfit hi hcount (.inl hm)).2
  intro d
  induction d using Nat.strongRecOn with
  | ind d ih =>
    intro hd
    have hle : fileBlock.toNat + (i.toNat + d) ≤ 2 ^ 32 := by
      rcases Nat.eq_zero_or_pos d with h0 | h0
      · omega
      · have := (ih (d - 1) (by omega) (by omega)).2.2
        omega
    have hc := run_countable hm hw (by omega) (hl d hd) hle
    refine ⟨hc, hfit.stretch (i.toNat + d) (by omega) fun j hj => ?_⟩
    rcases Nat.lt_or_ge j i.toNat with h | h
    · exact hcount j h
    · rcases Nat.lt_or_eq_of_le hj with h' | h'
      · have := (ih (j - i.toNat) (by omega) (by omega)).1
        rwa [show i.toNat + (j - i.toNat) = j by omega] at this
      · rwa [h']

/-- One turn that stores `n` blocks, then the rest of the request. -/
theorem BlocksRead.step {mem mem' : Mem} {i n run r : Nat} {data : Nat → UInt8} (hn : n ≤ run)
    (hrun : i + run ≤ numBlocks.toNat)
    (hd : ∀ d, d < n → fileBlock.toNat + (i + d) < 2 ^ 32 ∧ ∀ o, o < 2048 →
      data (2048 * d + o) = blockByte media f (fileBlock + UInt32.ofNat (i + d)) o)
    (h : BlocksRead media f buf fileBlock numBlocks (i + n) r
      (mem.blit (buf + 2048 * i) (2048 * run) data) mem') :
    BlocksRead media f buf fileBlock numBlocks i r mem mem' where
  le := by have := h.le; omega
  le_num := h.le_num
  counted := h.counted
  bytes := by
    intro k hk hkr
    by_cases hin : k < i + n
    · obtain ⟨hw, hb⟩ := hd (k - i) (by omega)
      rw [show i + (k - i) = k by omega] at hw hb
      refine ⟨hw, fun o ho => ?_⟩
      rw [h.frame _ (.inl (by omega)), Mem.blit_in (by omega) (by omega), ← hb o ho]
      congr 1
      omega
    · exact h.bytes k (by omega) hkr
  frame := by
    intro x hx
    rw [h.frame x (by omega), Mem.blit_out (by omega)]

theorem BlocksRead.stop {mem mem' : Mem} {i : Nat} (hi : i ≤ numBlocks.toNat)
    (hcount : ∀ j, j < i → Countable f (fileBlock.toNat + j))
    (hm : ∀ x, x < buf + 2048 * i ∨ buf + 2048 * numBlocks.toNat ≤ x → mem' x = mem x) :
    BlocksRead media f buf fileBlock numBlocks i i mem mem' where
  le := le_refl i
  le_num := hi
  counted := hcount
  bytes := fun k hk hki => absurd hk (by omega)
  frame := hm

theorem mul2048_toNat {i : UInt32} (h : i.toNat < 2 ^ 21) : (2048 * i).toNat = 2048 * i.toNat := by
  rw [UInt32.toNat_mul]
  show 2048 * i.toNat % 2 ^ 32 = _
  omega

theorem blockByte_hole {b : UInt32} (hf : f.contentInline = false) (h : (fileLba f b).1 = 0)
    (o : Nat) : blockByte media f b o = 0 := by
  simp [blockByte, udfreadFileLba, hf, h]

theorem blockByte_mapped {b : UInt32} (hf : f.contentInline = false) (h : (fileLba f b).1 ≠ 0)
    (o : Nat) : blockByte media f b o = media (fileLba f b).1 o := by
  simp [blockByte, udfreadFileLba, hf, h]

/-- The loop returns: every turn counts a block, and no block count overflows. -/
theorem readBlocksLoop_returns (hI : I.Serves media)
    (hov : ∀ k, k < numBlocks.toNat → (fileLba f (fileBlock + UInt32.ofNat k)).1 = 0 →
      LengthFits f) :
    ∀ (fuel : Nat) (i : UInt32) (mem : Mem) (s : σ), numBlocks.toNat ≤ i.toNat + fuel →
      ∃ r mem' s', readBlocksLoop I f buf fileBlock numBlocks flags fuel i mem s =
        .ok ((r, mem'), s') := by
  intro fuel
  induction fuel with
  | zero =>
    intro i mem s hfuel
    have hi : ¬ i < numBlocks := fun hc => by
      have := UInt32.lt_iff_toNat_lt.mp hc
      omega
    exact ⟨i, mem, s, by rw [readBlocksLoop, if_neg hi]; rfl⟩
  | succ fuel ih =>
    intro i mem s hfuel
    have hnum := numBlocks.toNat_lt
    by_cases hi : i < numBlocks
    · have hin := UInt32.lt_iff_toNat_lt.mp hi
      have ht : Turn I media f buf fileBlock numBlocks flags fuel i mem s _ :=
        readBlocksLoop_turn hI hi fuel mem s
      generalize hx : readBlocksLoop I f buf fileBlock numBlocks flags (fuel + 1) i mem s = x at ht
      cases ht with
      | overflow hl hb =>
        obtain ⟨n, hn⟩ := lengthFits_iff.mp (hov i.toNat hin (by rwa [UInt32.ofNat_toNat]))
        rw [hn] at hb
        cases hb
      | stop hl hb hlt => exact ⟨i, mem, s, rfl⟩
      | hole hl hb hlt =>
        refine ih (i + 1) _ s ?_
        rw [UInt32.toNat_add]
        simp
        omega
      | fail hl hn hrun => exact ⟨i, _, _, rfl⟩
      | more hl hrun hg hgr hc hd =>
        rename_i run got data s1
        refine ih (i + got) _ s1 ?_
        rw [UInt32.toNat_add]
        omega
    · exact ⟨i, mem, s, by rw [readBlocksLoop, if_pos hi]; rfl⟩

theorem readBlocksLoop_spec (hI : I.Serves media) (hf : f.contentInline = false)
    (hfit : BlocksFit f fileBlock numBlocks) {fuel : Nat} {i r : UInt32} {mem mem' : Mem} {s s' : σ}
    (hle : i.toNat ≤ numBlocks.toNat)
    (hrun : readBlocksLoop I f buf fileBlock numBlocks flags fuel i mem s = .ok ((r, mem'), s'))
    (hcount : ∀ j, j < i.toNat → Countable f (fileBlock.toNat + j)) :
    BlocksRead media f buf fileBlock numBlocks i.toNat r.toNat mem mem' := by
  have hnum := numBlocks.toNat_lt
  -- the induction carries that the blocks before the turn are countable
  refine readBlocksLoop_ind (P := fun i mem r mem' =>
    (∀ j, j < i.toNat → Countable f (fileBlock.toNat + j)) →
      BlocksRead media f buf fileBlock numBlocks i.toNat r.toNat mem mem')
    hI ?_ ?_ ?_ ?_ ?_ fuel i mem s r mem' s' hle hrun hcount
  · intro mem hcount
    exact .stop (le_refl _) hcount fun _ _ => rfl
  · intro i mem n hi hl hb hlt hcount
    exact .stop (le_of_lt (UInt32.lt_iff_toNat_lt.mp hi)) hcount fun _ _ => rfl
  · intro i mem r mem' n hi hl hb hlt ih hcount
    have hin := UInt32.lt_iff_toNat_lt.mp hi
    have hR : Readable f (fileBlock + i) := readable_iff.mpr (.inr ⟨_, hb, hlt⟩)
    obtain ⟨hi21, hw⟩ := stretch_at hfit hi hcount hR
    have h1 : (i + 1).toNat = i.toNat + 1 := by
      rw [UInt32.toNat_add]; simp; omega
    rw [mul2048_toNat hi21, h1] at ih
    refine .step (n := 1) (le_refl 1) (by omega) (fun d hd => ?_) (ih fun j hj => ?_)
    · obtain rfl : d = 0 := by omega
      exact ⟨by omega, fun o _ => by
        rw [Nat.add_zero, UInt32.ofNat_toNat, blockByte_hole hf hl]⟩
    · rcases Nat.lt_or_ge j i.toNat with h | h
      · exact hcount j h
      · obtain rfl : j = i.toNat := by omega
        exact countable_of_readable (by omega) (by rwa [UInt32.ofNat_toNat])
  · intro i mem run data hi hl hn hrun hcount
    obtain ⟨hi21, hw⟩ := stretch_at hfit hi hcount (.inl hl)
    refine .stop (by omega) hcount fun x hx => Mem.blit_out ?_
    rw [mul2048_toNat hi21]
    omega
  · intro i mem run got data s r mem' hi hl hrun hg hgr hc hd ih hcount
    have hin := UInt32.lt_iff_toNat_lt.mp hi
    have hs := stretch_run hfit hi hcount hl (n := got.toNat) (by omega) (by omega)
      fun d hd' => (hd d hd').1
    have hi21 := (hs 0 hg).2.1
    have h1 : (i + got).toNat = i.toNat + got.toNat := by
      rw [UInt32.toNat_add]; omega
    rw [mul2048_toNat (by omega), h1] at ih
    refine .step hgr (by omega) (fun d hd' => ?_) (ih fun j hj => ?_)
    · obtain ⟨_, _, hw⟩ := hs d hd'
      have hb : (fileBlock + i).toNat = fileBlock.toNat + i.toNat := by
        rw [UInt32.toNat_add, Nat.mod_eq_of_lt (by omega)]
      have hm := run_readable hl (d := d) (by omega) (hd d hd').1 (by omega)
      refine ⟨hw, fun o ho => ?_⟩
      rw [UInt32.ofNat_add, UInt32.ofNat_toNat, ← UInt32.add_assoc,
        blockByte_mapped hf hm.2, hm.1]
      exact (hd d hd').2 o ho
    · rcases Nat.lt_or_ge j i.toNat with h | h
      · exact hcount j h
      · have := (hs (j - i.toNat) (by omega)).1
        rwa [show i.toNat + (j - i.toNat) = j by omega] at this

/-- The first block of a request that counts any. -/
theorem readBlocksLoop_first (hI : I.Serves media) {fuel : Nat} {r : UInt32} {mem mem' : Mem}
    {s s' : σ}
    (hrun : readBlocksLoop I f buf fileBlock numBlocks flags fuel 0 mem s = .ok ((r, mem'), s'))
    (hr : 0 < r.toNat) : Readable f fileBlock := by
  have h := readBlocksLoop_ind (P := fun i _ r _ => i = 0 → 0 < r.toNat → Readable f fileBlock)
    hI ?_ ?_ ?_ ?_ ?_ fuel 0 mem s r mem' s' (by simp) hrun
  · exact h rfl hr
  · intro mem h0 hr
    rw [h0] at hr
    exact absurd hr (by simp)
  · intro i mem n hi hl hb hlt h0 hr
    rw [h0] at hr
    exact absurd hr (by simp)
  · intro i mem r mem' n hi hl hb hlt ih h0 hr
    rw [h0, UInt32.add_zero] at hlt
    exact readable_iff.mpr (.inr ⟨n, hb, hlt⟩)
  · intro i mem run data hi hl hn hrun h0 hr
    rw [h0] at hr
    exact absurd hr (by simp)
  · intro i mem run got data s r mem' hi hl hrun hg hgr hc hd ih h0 hr
    rw [h0, UInt32.add_zero] at hl
    exact .inl hl

/-! ## Inputs that never fail -/

/-- Over an input that never fails, the loop ends with the request or at a block it cannot read. -/
theorem readBlocksLoop_neverFails (hI : I.Serves media) (hn : I.NeverFails) {fuel : Nat}
    {i r : UInt32} {mem mem' : Mem} {s s' : σ} (hle : i.toNat ≤ numBlocks.toNat)
    (hrun : readBlocksLoop I f buf fileBlock numBlocks flags fuel i mem s = .ok ((r, mem'), s')) :
    i.toNat ≤ r.toNat ∧ r.toNat ≤ numBlocks.toNat ∧
      (r ≠ numBlocks → ¬ Readable f (fileBlock + r) ∧ LengthFits f) := by
  have hnum := numBlocks.toNat_lt
  refine readBlocksLoop_ind (P := fun i _ r _ => i.toNat ≤ r.toNat ∧ r.toNat ≤ numBlocks.toNat ∧
      (r ≠ numBlocks → ¬ Readable f (fileBlock + r) ∧ LengthFits f))
    hI ?_ ?_ ?_ ?_ ?_ fuel i mem s r mem' s' hle hrun
  · exact fun _ => ⟨le_refl _, le_refl _, fun h => absurd rfl h⟩
  · intro i mem n hi hl hb hlt
    refine ⟨le_refl _, le_of_lt (UInt32.lt_iff_toNat_lt.mp hi),
      fun _ => ⟨fun hR => ?_, lengthFits_iff.mpr ⟨n, hb⟩⟩⟩
    rcases readable_iff.mp hR with h | ⟨n', hn', hlt'⟩
    · exact h hl
    · rw [hb] at hn'
      cases hn'
      exact hlt hlt'
  · intro i mem r mem' n hi hl hb hlt ih
    have hin := UInt32.lt_iff_toNat_lt.mp hi
    rw [UInt32.toNat_add] at ih
    simp at ih
    exact ⟨by omega, by omega, ih.2.2⟩
  · intro i mem run data hi hl hn'
    exact absurd hn hn'
  · intro i mem run got data s r mem' hi hl hrun hg hgr hc hd ih
    rw [UInt32.toNat_add, Nat.mod_eq_of_lt (by omega)] at ih
    exact ⟨by omega, ih.2⟩

end Loop

/-! ## The call -/

theorem udfreadReadBlocks_eq_loop {f : UdfFile} (hf : f.contentInline = false) (I : BlockInput σ)
    (mem : Mem) (buf : Nat) (fileBlock numBlocks : UInt32) (flags : Int) :
    udfreadReadBlocks I f mem buf fileBlock numBlocks flags =
      readBlocksLoop I f buf fileBlock numBlocks flags numBlocks.toNat 0 mem := by
  unfold udfreadReadBlocks
  split
  · subst numBlocks
    rfl
  · rw [if_neg (by rw [hf]; simp)]

theorem udfreadReadBlocks_fit {I : BlockInput σ} {media : Media} {f : UdfFile}
    {fileBlock numBlocks : UInt32} (hI : I.Serves media) (hf : f.contentInline = false)
    (hfit : BlocksFit f fileBlock numBlocks) (mem : Mem) (buf : Nat) (flags : Int) (s : σ) :
    ∃ r mem' s', udfreadReadBlocks I f mem buf fileBlock numBlocks flags s =
        .ok ((r, mem'), s') ∧
      BlocksRead media f buf fileBlock numBlocks 0 r.toNat mem mem' := by
  rw [udfreadReadBlocks_eq_loop hf]
  obtain ⟨r, mem', s', hrun⟩ := readBlocksLoop_returns hI hfit.noOverflow
    numBlocks.toNat 0 mem s (by simp)
  exact ⟨r, mem', s', hrun, readBlocksLoop_spec hI hf hfit (by simp) hrun (by simp)⟩

end

end UdfRead
