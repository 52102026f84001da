import UdfRead.LargeReads
import UdfRead.StreamRefinement

/-!
# UdfRead.FarPositions

Short reads at any position of a file of less than 2^63 bytes. `_read` narrows the block number of
the position to 32 bits, so a block with a larger number is looked up as the one with its low 32
bits. The bytes are those of their positions exactly if no such block is mapped there
(`readsPositions_iff`).
-/

namespace UdfRead

open CModel

/-- Byte `q` of the file. A block that is not mapped is zeros, and so is one whose number does not
fit in 32 bits. -/
def positionByte (media : Media) (f : UdfFile) (q : Nat) : UInt8 :=
  if q / 2048 < 2 ^ 32 then blockByte media f (UInt32.ofNat (q / 2048)) (q % 2048) else 0

/-- Over every input that serves all blocks, the read returns, and each byte it delivers is the one
of its position. -/
def ReadsPositions (f : UdfFile) (bytes : UInt64) : Prop :=
  ∀ (σ : Type) (media : Media) (I : BlockInput σ), I.Serves media → I.NeverFails →
    ∀ (s : σ) (mem : Mem) (buf fuel : Nat), bytes.toNat ≤ fuel →
      ∃ r f' mem' s', udfreadFileRead I fuel f mem buf bytes s = .ok ((r, f', mem'), s') ∧
        ∀ k : Nat, (k : Int) < r → mem' (buf + k) = positionByte media f (f.pos.toNat + k)

/-- The block is mapped, or the sum for the block count of the file does not overflow. -/
def Decided (f : UdfFile) (b : UInt32) : Prop :=
  (fileLba f b).1 ≠ 0 ∨ LengthFits f

/-- The blocks a read of `n` bytes gets to: the one the position lies in, and the next one when the
bytes go on there and the first is readable. -/
def Reached (f : UdfFile) (n b : Nat) : Prop :=
  b = f.pos.toNat / 2048 ∨
    (b = f.pos.toNat / 2048 + 1 ∧ 2048 * b < f.pos.toNat + n ∧
      Readable f (UInt32.ofNat (f.pos.toNat / 2048)))

/-- No block the read gets to has a number from 2^32 on that is mapped when cut off to 32 bits, and
where one is not mapped, the block count is defined. -/
def PositionsFit (f : UdfFile) (n : Nat) : Prop :=
  ∀ b, Reached f n b →
    Decided f (UInt32.ofNat b) ∧ (2 ^ 32 ≤ b → (fileLba f (UInt32.ofNat b)).1 = 0)

section

variable {σ : Type} {I : BlockInput σ} {media : Media} {f f' : UdfFile} {n : Nat}

theorem Readable.decided {b : UInt32} (h : Readable f b) : Decided f b := h.imp_right And.left

theorem decided_same (h : f.Same f') (b : UInt32) : Decided f b ↔ Decided f' b := by
  unfold Decided LengthFits
  rw [fileLba_same h, h.2]

/-! ## One block -/

/-- A request for one block whose fate is decided: read, or not in the file. -/
theorem readBlock_decided (hI : I.Serves media) (hn : I.NeverFails) (hf : f.contentInline = false)
    {b : UInt32} (h : Decided f b) (mem : Mem) (buf : Nat) (s : σ) :
    ∃ r mem' s', udfreadReadBlocks I f mem buf b 1 0 s = .ok ((r, mem'), s') ∧
      (∀ x, x < buf → mem' x = mem x) ∧
      (Readable f b ∧ r = 1 ∧ (∀ o, o < 2048 → mem' (buf + o) = blockByte media f b o) ∨
        ¬ Readable f b ∧ r = 0) := by
  have hfit : BlocksFit f b 1 := by
    refine ⟨fun k hk _ => ?_, fun k hk hl => ?_⟩
    · have := b.toNat_lt
      simp at hk
      omega
    · obtain rfl : k = 0 := by simpa using hk
      rw [show b + UInt32.ofNat 0 = b from UInt32.add_zero b] at hl
      exact h.resolve_left (not_not_intro hl)
  obtain ⟨r, mem', s', hrun, hread⟩ := udfreadReadBlocks_fit hI hf hfit mem buf 0 s
  refine ⟨r, mem', s', hrun, fun x hx => hread.frame x (by omega), ?_⟩
  by_cases hR : Readable f b
  · have hall : ∀ k, k < (1 : UInt32).toNat → Readable f (b + UInt32.ofNat k) := by
      intro k hk
      obtain rfl : k = 0 := by simpa using hk
      simpa using hR
    obtain ⟨mem₁, s₁, hrun₁⟩ := udfreadReadBlocks_all hI hn hf hall mem buf 0 s
    rw [hrun] at hrun₁
    cases hrun₁
    refine .inl ⟨hR, rfl, fun o ho => ?_⟩
    have := (hread.bytes 0 (le_refl 0) (by simp)).2 o ho
    simpa using this
  · refine .inr ⟨hR, ?_⟩
    by_contra hne
    have hpos : 0 < r.toNat := Nat.pos_of_ne_zero fun hz => hne (UInt32.toNat_inj.mp hz)
    rw [udfreadReadBlocks_eq_loop hf] at hrun
    exact hR (readBlocksLoop_first hI hrun hpos)

theorem readBlock_undecided (hI : I.Serves media) (hf : f.contentInline = false) {b : UInt32}
    (h : ¬ Decided f b) (mem : Mem) (buf : Nat) (s : σ) :
    ∃ t, udfreadReadBlocks I f mem buf b 1 0 s = .error t := by
  unfold Decided at h
  rw [not_or, not_not] at h
  have hturn : Turn I media f buf b 1 0 0 0 mem s _ :=
    readBlocksLoop_turn hI (show (0 : UInt32) < 1 by decide) 0 mem s
  rw [udfreadReadBlocks_eq_loop hf]
  have hb : b + 0 = b := UInt32.add_zero b
  generalize hx : readBlocksLoop I f buf b 1 0 (0 + 1) 0 mem s = x at hturn
  have hx' : readBlocksLoop I f buf b 1 0 (1 : UInt32).toNat 0 mem s = x := hx
  rw [hx']
  cases hturn with
  | @overflow t hl ht => exact ⟨t, rfl⟩
  | stop hl ht hlt => exact absurd (lengthFits_iff.mpr ⟨_, ht⟩) h.2
  | hole hl ht hlt => exact absurd (lengthFits_iff.mpr ⟨_, ht⟩) h.2
  | fail hl hn hrun =>
    rw [hb] at hl
    exact absurd h.1 hl
  | more hl hrun hg hgr hc hd =>
    rw [hb] at hl
    exact absurd h.1 hl

theorem readTmp_decided (hI : I.Serves media) (hn : I.NeverFails) (hf : f.contentInline = false)
    {b : UInt32} (h : Decided f b) (s : σ) :
    ∃ ok f' s', readTmp I f b s = .ok ((ok, f'), s') ∧ f'.Same f ∧ f'.pos = f.pos ∧
      (Readable f b ∧ ok = true ∧ (∀ o, o < 2048 → f'.tmp o = blockByte media f b o) ∨
        ¬ Readable f b ∧ ok = false) := by
  obtain ⟨r, tmp, s', hrun, -, hcase⟩ := readBlock_decided hI hn hf h f.tmp 0 s
  unfold readTmp
  rw [Proc.bind_of_ok hrun]
  rcases hcase with ⟨hR, rfl, hbytes⟩ | ⟨hR, rfl⟩
  · refine ⟨true, { f with block := some tmp, blockValid := true }, s', rfl, ⟨rfl, rfl⟩, rfl,
      .inl ⟨hR, rfl, fun o ho => ?_⟩⟩
    simpa [UdfFile.tmp] using hbytes o ho
  · exact ⟨false, { f with block := some tmp }, s', rfl, ⟨rfl, rfl⟩, rfl, .inr ⟨hR, rfl⟩⟩

/-! ## One chunk -/

theorem numBlocks_one {bytes : UInt64} (h : bytes.toNat = 2048) : (bytes / 2048).toUInt32 = 1 := by
  apply UInt32.toNat_inj.mp
  rw [numBlocks_toNat, h]
  rfl

/-- With the temporary block dropped, the block is read. -/
theorem validTmp_dropped (I : BlockInput σ) (hv : f.blockValid = false) :
    validTmp I f (f.pos / 2048).toUInt32 =
      readTmp I f (UInt32.ofNat (f.pos.toNat / 2048)) := by
  unfold validTmp
  rw [hv, fileBlock_eq]
  rfl

/-- What `_read` does with a request of at most one block: nothing when the block is not in the
file, else `m` bytes of it. -/
inductive ShortChunk (media : Media) (f : UdfFile) (mem : Mem) (buf m : Nat) (r : Int)
    (f' : UdfFile) (mem' : Mem) : Prop where
  | fail : ¬ Readable f (UInt32.ofNat (f.pos.toNat / 2048)) → r = -1 →
      (∀ x, x < buf → mem' x = mem x) → ShortChunk media f mem buf m r f' mem'
  | get : Readable f (UInt32.ofNat (f.pos.toNat / 2048)) → r = m → f'.Same f →
      f'.pos.toNat = f.pos.toNat + m → mem'.Holds buf m (logicalByte media f) f.pos.toNat →
      (∀ x, x < buf → mem' x = mem x) → ShortChunk media f mem buf m r f' mem'

theorem readChunk_short (hI : I.Serves media) (hn : I.NeverFails) (hf : f.contentInline = false)
    {bytes : UInt64} (hb : 0 < bytes.toNat) (hb' : bytes.toNat ≤ 2048)
    (hv : f.pos.toNat % 2048 ≠ 0 → f.blockValid = false)
    (hw : f.pos.toNat + bytes.toNat < 2 ^ 64) (hdec : Decided f (UInt32.ofNat (f.pos.toNat / 2048)))
    (mem : Mem) (buf : Nat) (s : σ) :
    ∃ r f' mem' s', readChunk I f mem buf bytes s = .ok ((r, f', mem'), s') ∧
      ShortChunk media f mem buf (min (2048 - f.pos.toNat % 2048) bytes.toNat) r f' mem' := by
  have hfb := fileBlock_eq f.pos
  by_cases hoff : f.pos.toNat % 2048 = 0
  · have hm : min (2048 - f.pos.toNat % 2048) bytes.toNat = bytes.toNat := by omega
    rw [readChunk, if_neg (by simp [pos_aligned.mpr hoff]), hm, hfb]
    by_cases hblocks : 2048 ≤ bytes.toNat
    · -- a full block
      have hfull : bytes.toNat = 2048 := by omega
      obtain ⟨r, mem', s', hrun, hstart, hcase⟩ := readBlock_decided hI hn hf hdec mem buf s
      rw [if_pos (by rw [UInt64.le_iff_toNat_le]; exact hblocks), numBlocks_one hfull,
        Proc.bind_of_ok hrun]
      rcases hcase with ⟨hR, rfl, hbytes⟩ | ⟨hR, rfl⟩
      · have hadd : (f.pos + (1 * 2048 : UInt32).toUInt64).toNat = f.pos.toNat + bytes.toNat := by
          have hsize : (1 * 2048 : UInt32).toUInt64.toNat = bytes.toNat := hfull.symm
          rw [UInt64.toNat_add, hsize, Nat.mod_eq_of_lt hw]
        refine ⟨_, _, _, s', rfl, .get hR (by rw [hfull]; rfl) ⟨rfl, rfl⟩ hadd (fun k hk => ?_) hstart⟩
        rw [hbytes k (by omega), ← logicalByte_block hf (by omega)]
        exact congrArg _ (by omega)
      · exact ⟨_, _, _, s', rfl, .fail hR rfl hstart⟩
    · -- the beginning of a block
      obtain ⟨ok, f', s', hrun, hsame, hpos, hcase⟩ := readTmp_decided hI hn hf hdec s
      rw [if_neg (by rw [UInt64.le_iff_toNat_le]; exact hblocks), Proc.bind_of_ok hrun]
      rcases hcase with ⟨hR, rfl, htmp⟩ | ⟨hR, rfl⟩
      · have hadd : (f'.pos + bytes).toNat = f.pos.toNat + bytes.toNat := by
          rw [hpos, UInt64.toNat_add, Nat.mod_eq_of_lt hw]
        refine ⟨_, { f' with pos := f'.pos + bytes }, _, s', rfl, .get hR rfl ⟨hsame.1, hsame.2⟩ hadd
          (Mem.holds_blit fun k hk => ?_) fun x hx => Mem.blit_out (.inl hx)⟩
        rw [htmp k (by omega), ← logicalByte_block hf (by omega)]
        exact congrArg _ (by omega)
      · exact ⟨_, _, _, s', rfl, .fail hR rfl fun _ _ => rfl⟩
  · -- the middle of a block
    have hne : f.pos % 2048 ≠ 0 := fun h => hoff (pos_aligned.mp h)
    obtain ⟨ok, f', s', hrun, hsame, hpos, hcase⟩ := readTmp_decided hI hn hf hdec s
    rw [readChunk, if_pos hne, validTmp_dropped I (hv hoff), Proc.bind_of_ok hrun]
    rcases hcase with ⟨hR, rfl, htmp⟩ | ⟨hR, rfl⟩
    · have hsz := chunkSize_toNat f bytes
      obtain ⟨chunk, hchunk⟩ : ∃ chunk, min (2048 - f.pos % 2048) bytes = chunk := ⟨_, rfl⟩
      rw [hchunk] at hsz
      have hadd : (f'.pos + chunk).toNat = f.pos.toNat + chunk.toNat := by
        rw [hpos, UInt64.toNat_add, Nat.mod_eq_of_lt (by omega)]
      simp only [hchunk]
      rw [← hsz]
      refine ⟨_, { f' with pos := f'.pos + chunk }, _, s', rfl, .get hR rfl ⟨hsame.1, hsame.2⟩ hadd
        (Mem.holds_blit fun k hk => ?_) fun x hx => Mem.blit_out (.inl hx)⟩
      rw [pos_mod, htmp _ (by omega), ← logicalByte_block hf (by omega)]
      exact congrArg _ (by omega)
    · exact ⟨_, _, _, s', rfl, .fail hR rfl fun _ _ => rfl⟩

theorem readChunk_undecided (hI : I.Serves media) (hf : f.contentInline = false) {bytes : UInt64}
    (hb' : bytes.toNat ≤ 2048) (hv : f.pos.toNat % 2048 ≠ 0 → f.blockValid = false)
    (hdec : ¬ Decided f (UInt32.ofNat (f.pos.toNat / 2048))) (mem : Mem) (buf : Nat) (s : σ) :
    ∃ t, readChunk I f mem buf bytes s = .error t := by
  have hfb := fileBlock_eq f.pos
  have htmp : ∃ t, readTmp I f (UInt32.ofNat (f.pos.toNat / 2048)) s = .error t := by
    obtain ⟨t, ht⟩ := readBlock_undecided hI hf hdec f.tmp 0 s
    unfold readTmp
    exact ⟨t, Proc.bind_of_error ht⟩
  obtain ⟨t, ht⟩ := htmp
  by_cases hoff : f.pos.toNat % 2048 = 0
  · rw [readChunk, if_neg (by simp [pos_aligned.mpr hoff]), hfb]
    by_cases hblocks : 2048 ≤ bytes.toNat
    · obtain ⟨t', ht'⟩ := readBlock_undecided hI hf hdec mem buf s
      rw [if_pos (by rw [UInt64.le_iff_toNat_le]; exact hblocks), numBlocks_one (by omega)]
      exact ⟨t', Proc.bind_of_error ht'⟩
    · rw [if_neg (by rw [UInt64.le_iff_toNat_le]; exact hblocks)]
      exact ⟨t, Proc.bind_of_error ht⟩
  · rw [readChunk, if_pos fun h => hoff (pos_aligned.mp h), validTmp_dropped I (hv hoff)]
    exact ⟨t, Proc.bind_of_error ht⟩

/-! ## The call -/

theorem readChunks_zero {bytes : UInt64} (hz : bytes.toNat = 0) (fuel : Nat) (f : UdfFile) (mem : Mem)
    (buf off : Nat) (s : σ) :
    readChunks I buf fuel f mem off bytes s = .ok (((off : Int), f, mem), s) := by
  have hnot : ¬ bytes > 0 := by
    intro h
    have := UInt64.lt_iff_toNat_lt.mp h
    simp at this
    omega
  cases fuel with
  | zero => rw [readChunks, if_neg hnot]; rfl
  | succ fuel => rw [readChunks, if_pos hnot]; rfl

/-- One turn of the chunk loop, by the result of `_read`. -/
theorem readChunks_turn {bytes : UInt64} (hb : 0 < bytes.toNat) {mem mem' : Mem} {buf off : Nat}
    {s s' : σ} {r : Int} (hrun : readChunk I f mem (buf + off) bytes s = .ok ((r, f', mem'), s'))
    (fuel : Nat) :
    readChunks I buf (fuel + 1) f mem off bytes s =
      if r < 0 then .ok ((if off ≠ 0 then (off : Int) else -1, f', mem'), s')
      else readChunks I buf fuel f' mem' (off + r.toNat) (bytes - UInt64.ofNat r.toNat) s' := by
  have hpos : bytes > 0 := UInt64.lt_iff_toNat_lt.mpr hb
  rw [readChunks, if_neg (not_not_intro hpos), Proc.bind_of_ok hrun]
  simp only []
  split
  · split
    · simp_all
    · simp_all
  · rfl

/-- What a short read does: it traps at a block whose fate is not decided, or it delivers the bytes
of the readable ones among the blocks it gets to, all of which are decided. -/
inductive ShortRead (media : Media) (f : UdfFile) (buf n : Nat) :
    Except Trap ((Int × UdfFile × Mem) × σ) → Prop where
  | trap {t : Trap} {b : Nat} : Reached f n b → ¬ Decided f (UInt32.ofNat b) →
      ShortRead media f buf n (.error t)
  | ends {r : Int} {f' : UdfFile} {mem' : Mem} {s' : σ} :
      (∀ b, Reached f n b → Decided f (UInt32.ofNat b)) →
      (∀ k : Nat, (k : Int) < r → Reached f n ((f.pos.toNat + k) / 2048) ∧
        mem' (buf + k) = logicalByte media f (f.pos.toNat + k)) →
      (∀ k, k < n → Reached f n ((f.pos.toNat + k) / 2048) →
        Readable f (UInt32.ofNat ((f.pos.toNat + k) / 2048)) → (k : Int) < r) →
      ShortRead media f buf n (.ok ((r, f', mem'), s'))

/-- A read that gets to its first block only. -/
theorem reached_first (hle : f.pos.toNat % 2048 + n ≤ 2048 ∨
    ¬ Readable f (UInt32.ofNat (f.pos.toNat / 2048))) {b : Nat} (h : Reached f n b) :
    b = f.pos.toNat / 2048 := by
  rcases h with h | ⟨h, hlt, hR⟩
  · exact h
  · rcases hle with hle | hle
    · omega
    · exact absurd hR hle

/-- The second turn, when the first one took the `m` bytes up to the end of its block. -/
theorem readChunks_next (hI : I.Serves media) (hn : I.NeverFails) (hf : f.contentInline = false)
    {n m : Nat} (hn' : n ≤ 2048) (hw : f.pos.toNat + n < 2 ^ 64)
    (hR : Readable f (UInt32.ofNat (f.pos.toNat / 2048))) {f₁ : UdfFile} (hsame : f₁.Same f)
    (hpos : f₁.pos.toNat = f.pos.toNat + m) (hend : f.pos.toNat % 2048 + m = 2048) (hm : m < n)
    {mem₁ : Mem} {buf : Nat} (hold : mem₁.Holds buf m (logicalByte media f) f.pos.toNat)
    {left : UInt64} (hleft : left.toNat = n - m) (fuel : Nat) (s₁ : σ) :
    ShortRead media f buf n
      (readChunks I buf (fuel + 1) f₁ mem₁ (0 + (m : Int).toNat) left s₁) := by
  have hnext : f₁.pos.toNat / 2048 = f.pos.toNat / 2048 + 1 := by omega
  have hreach : Reached f n (f₁.pos.toNat / 2048) := .inr ⟨hnext, by omega, hR⟩
  have hf₁ : f₁.contentInline = false := (contentInline_same hsame).trans hf
  have hpos₁ : 0 < left.toNat := by omega
  have hle₁ : left.toNat ≤ 2048 := by omega
  have hv₁ : f₁.pos.toNat % 2048 ≠ 0 → f₁.blockValid = false := fun h => absurd h (by omega)
  rw [Int.toNat_natCast, Nat.zero_add]
  by_cases hdec₁ : Decided f₁ (UInt32.ofNat (f₁.pos.toNat / 2048))
  · have hdecided : ∀ b, Reached f n b → Decided f (UInt32.ofNat b) := by
      intro b hb
      rcases hb with hb | ⟨hb, -, -⟩
      · rw [hb]
        exact hR.decided
      · rw [hb, ← hnext]
        exact (decided_same hsame _).mp hdec₁
    obtain ⟨r, f₂, mem₂, s₂, hrun, hchunk⟩ := readChunk_short hI hn hf₁ hpos₁ hle₁ hv₁ (by omega)
      hdec₁ mem₁ (buf + m) s₁
    rw [readChunks_turn hpos₁ hrun]
    cases hchunk with
    | fail hR₂ hr hframe =>
      subst hr
      rw [if_pos (by decide), if_pos (by omega)]
      refine .ends hdecided (fun k hk => ⟨.inl (by omega), ?_⟩) fun k hk _ hread => ?_
      · rw [hframe _ (by omega)]
        exact hold k (by omega)
      · by_contra hge
        rw [show (f.pos.toNat + k) / 2048 = f₁.pos.toNat / 2048 by omega] at hread
        exact hR₂ ((readable_same hsame _).mpr hread)
    | get hR₂ hr hsame₂ hpos₂ hold₂ hframe =>
      have hmin : min (2048 - f₁.pos.toNat % 2048) left.toNat = left.toNat := by omega
      rw [hmin] at hr hold₂
      subst hr
      have hzero : (left - UInt64.ofNat ((left.toNat : Int)).toNat).toNat = 0 := by simp
      rw [if_neg (by omega), readChunks_zero hzero, Int.toNat_natCast]
      refine .ends hdecided (fun k hk => ?_) fun k hk _ _ => by omega
      by_cases hk' : k < m
      · refine ⟨.inl (by omega), ?_⟩
        rw [hframe _ (by omega)]
        exact hold k hk'
      · have hblock : (f.pos.toNat + k) / 2048 = f₁.pos.toNat / 2048 := by omega
        have hbyte := hold₂ (k - m) (by omega)
        rw [logicalByte_same hsame, hpos, Nat.add_assoc, Nat.add_assoc,
          Nat.add_sub_cancel' (by omega)] at hbyte
        rw [hblock]
        exact ⟨hreach, hbyte⟩
  · obtain ⟨t, ht⟩ := readChunk_undecided hI hf₁ hle₁ hv₁ hdec₁ mem₁ (buf + m) s₁
    have hpos' : left > 0 := UInt64.lt_iff_toNat_lt.mpr hpos₁
    rw [readChunks, if_neg (not_not_intro hpos'), Proc.bind_of_error ht]
    exact .trap hreach fun h => hdec₁ ((decided_same hsame _).mpr h)

theorem readChunks_short (hI : I.Serves media) (hn : I.NeverFails) (hf : f.contentInline = false)
    {bytes : UInt64} (hb : 0 < bytes.toNat) (hb' : bytes.toNat ≤ 2048)
    (hv : f.pos.toNat % 2048 ≠ 0 → f.blockValid = false)
    (hw : f.pos.toNat + bytes.toNat < 2 ^ 64) {fuel : Nat} (hfuel : bytes.toNat ≤ fuel)
    (mem : Mem) (buf : Nat) (s : σ) :
    ShortRead media f buf bytes.toNat (readChunks I buf fuel f mem 0 bytes s) := by
  obtain ⟨fuel, rfl⟩ : ∃ k, fuel = k + 1 := ⟨fuel - 1, by omega⟩
  by_cases hdec : Decided f (UInt32.ofNat (f.pos.toNat / 2048))
  · obtain ⟨r, f₁, mem₁, s₁, hrun, hchunk⟩ := readChunk_short hI hn hf hb hb' hv hw hdec mem (buf + 0) s
    rw [readChunks_turn hb hrun]
    cases hchunk with
    | fail hR hr hframe =>
      -- the first block is not in the file
      subst hr
      refine .ends (fun b hb => ?_) (fun k hk => ?_) fun k hk hreach hread => ?_
      · rw [reached_first (.inr hR) hb]
        exact hdec
      · simp at hk
        omega
      · rw [reached_first (.inr hR) hreach] at hread
        exact absurd hread hR
    | get hR hr hsame hpos hold hframe =>
      obtain ⟨m, hm⟩ : ∃ m, min (2048 - f.pos.toNat % 2048) bytes.toNat = m := ⟨_, rfl⟩
      rw [hm] at hr hpos hold
      subst hr
      have hsub : (bytes - UInt64.ofNat ((m : Int)).toNat).toNat = bytes.toNat - m := by
        have hmle : (m : Int) ≤ bytes.toNat := by omega
        have := bytes_sub (show (0 : Int) < m by omega) hmle
        simpa using this
      rw [if_neg (by omega)]
      by_cases hone : bytes.toNat = m
      · -- the bytes end in the first block
        have hle : f.pos.toNat % 2048 + bytes.toNat ≤ 2048 := by omega
        rw [readChunks_zero (by omega)]
        refine .ends (fun b hb => ?_) (fun k hk => ⟨.inl (by omega), ?_⟩) fun k hk _ _ => ?_
        · rw [reached_first (.inl hle) hb]
          exact hdec
        · exact hold k (by omega)
        · omega
      · obtain ⟨fuel, rfl⟩ : ∃ k, fuel = k + 1 := ⟨fuel - 1, by omega⟩
        exact readChunks_next hI hn hf hb' hw hR hsame hpos (by omega) (by omega) hold hsub fuel s₁
  · obtain ⟨t, ht⟩ := readChunk_undecided hI hf hb' hv hdec mem (buf + 0) s
    have hpos : bytes > 0 := UInt64.lt_iff_toNat_lt.mpr hb
    rw [readChunks, if_neg (not_not_intro hpos), Proc.bind_of_error ht]
    exact .trap (.inl rfl) hdec

/-- The call on a handle whose temporary block was dropped. -/
theorem udfreadFileRead_short (hI : I.Serves media) (hn : I.NeverFails) (hf : f.contentInline = false)
    (hlen : f.fe.length.toNat < 2 ^ 63) (hpos : f.pos.toNat < f.fe.length.toNat)
    (hv : f.blockValid = false) {bytes : UInt64} (hb : 1 ≤ bytes.toNat) (hb' : bytes.toNat ≤ 2048)
    {fuel : Nat} (hfuel : bytes.toNat ≤ fuel) (mem : Mem) (buf : Nat) (s : σ) :
    ShortRead media f buf (rest f bytes.toNat) (udfreadFileRead I fuel f mem buf bytes s) := by
  have hlim : (limitBytes f bytes).toNat = rest f bytes.toNat :=
    (limitBytes_rest hpos (by omega)).mpr (by omega)
  have hrest : 0 < rest f bytes.toNat ∧ rest f bytes.toNat ≤ bytes.toNat ∧
      f.pos.toNat + rest f bytes.toNat ≤ f.fe.length.toNat := by
    unfold rest
    omega
  have hsame : (chunkStart f mem bytes s).file.Same f := ⟨rfl, rfl⟩
  rw [udfreadFileRead_eq_chunks hf (by omega) (UInt64.lt_iff_toNat_lt.mpr hpos)]
  have hstart : (chunkStart f mem bytes s).file.contentInline = false := hf
  have hw : (chunkStart f mem bytes s).file.pos.toNat + (limitBytes f bytes).toNat < 2 ^ 64 :=
    show f.pos.toNat + _ < _ by omega
  have hfuel' : (limitBytes f bytes).toNat ≤ fuel := by omega
  have hshort := readChunks_short hI hn hstart (by omega) (by omega) (fun _ => hv) hw hfuel' mem buf s
  rw [hlim] at hshort
  have hreached : ∀ b, Reached (chunkStart f mem bytes s).file (rest f bytes.toNat) b ↔
      Reached f (rest f bytes.toNat) b := by
    intro b
    unfold Reached
    rw [readable_same hsame]
    exact Iff.rfl
  generalize hx : readChunks I buf fuel (chunkStart f mem bytes s).file mem 0 (limitBytes f bytes) s = x
    at hshort ⊢
  cases hshort with
  | trap hreach hdec => exact .trap ((hreached _).mp hreach) fun h => hdec ((decided_same hsame _).mpr h)
  | ends hdec hbytes hall =>
    refine .ends (fun b hb => (decided_same hsame _).mp (hdec b ((hreached b).mpr hb)))
      (fun k hk => ?_) fun k hk hreach hR => ?_
    · obtain ⟨hreach, hbyte⟩ := hbytes k hk
      exact ⟨(hreached _).mp hreach, hbyte.trans (logicalByte_same hsame _)⟩
    · exact hall k hk ((hreached _).mpr hreach) ((readable_same hsame _).mpr hR)

/-- The bytes of a position are those of its block, with the number cut off to 32 bits, unless the
number is too large and the block is mapped. -/
theorem positionByte_eq (hf : f.contentInline = false) {q : Nat}
    (h : 2 ^ 32 ≤ q / 2048 → (fileLba f (UInt32.ofNat (q / 2048))).1 = 0) :
    positionByte media f q = logicalByte media f q := by
  have hlogical : logicalByte media f q =
      blockByte media f (UInt32.ofNat (q / 2048)) (q % 2048) := by
    rw [← logicalByte_block hf (Nat.mod_lt q (by omega)), Nat.div_add_mod]
  unfold positionByte
  by_cases hlt : q / 2048 < 2 ^ 32
  · rw [if_pos hlt, hlogical]
  · rw [if_neg hlt, hlogical, blockByte_hole hf (h (by omega))]

theorem readsPositions_of_fit (hf : f.contentInline = false) (hlen : f.fe.length.toNat < 2 ^ 63)
    (hpos : f.pos.toNat < f.fe.length.toNat) (hv : f.blockValid = false) {bytes : UInt64}
    (hb : 1 ≤ bytes.toNat) (hb' : bytes.toNat ≤ 2048)
    (hfit : PositionsFit f (rest f bytes.toNat)) : ReadsPositions f bytes := by
  intro σ media I hI hn s mem buf fuel hfuel
  have hshort := udfreadFileRead_short hI hn hf hlen hpos hv hb hb' hfuel mem buf s
  generalize hx : udfreadFileRead I fuel f mem buf bytes s = x at hshort ⊢
  cases hshort with
  | trap hreach hdec => exact absurd (hfit _ hreach).1 hdec
  | ends hdec hbytes hall =>
    refine ⟨_, _, _, _, rfl, fun k hk => ?_⟩
    obtain ⟨hreach, hbyte⟩ := hbytes k hk
    rw [hbyte, positionByte_eq hf (hfit _ hreach).2]

theorem fit_of_readsPositions (hf : f.contentInline = false) (hlen : f.fe.length.toNat < 2 ^ 63)
    (hpos : f.pos.toNat < f.fe.length.toNat) (hv : f.blockValid = false) {bytes : UInt64}
    (hb : 1 ≤ bytes.toNat) (hb' : bytes.toNat ≤ 2048) (h : ReadsPositions f bytes) :
    PositionsFit f (rest f bytes.toNat) := by
  -- a medium without a zero byte
  obtain ⟨r, f', mem', s', hrun, hbytes⟩ := h Unit (fun _ _ => 1) (BlockInput.full fun _ _ => 1)
    (BlockInput.full_serves _) (BlockInput.full_neverFails _) () (fun _ => 0) 0 bytes.toNat (le_refl _)
  have hshort := udfreadFileRead_short (BlockInput.full_serves fun _ _ => 1)
    (BlockInput.full_neverFails _) hf hlen hpos hv hb hb' (le_refl _) (fun _ => 0) 0 ()
  rw [hrun] at hshort
  cases hshort with
  | ends hdec hdelivered hall =>
    refine fun b hreach => ⟨hdec b hreach, fun hge => ?_⟩
    by_contra hmapped
    obtain ⟨k, hk, hblock⟩ : ∃ k, k < rest f bytes.toNat ∧ (f.pos.toNat + k) / 2048 = b := by
      rcases hreach with hb | ⟨hb, hlt, -⟩
      · exact ⟨0, by unfold rest; omega, by omega⟩
      · exact ⟨2048 * b - f.pos.toNat, by omega, by omega⟩
    have hlt := hall k hk (by rwa [hblock]) (by rw [hblock]; exact .inl hmapped)
    have hread := (hdelivered k hlt).2
    have hq : f.pos.toNat + k = 2048 * b + (f.pos.toNat + k) % 2048 := by omega
    rw [hbytes k hlt, positionByte, hblock, if_neg (by omega), hq,
      logicalByte_block hf (Nat.mod_lt _ (by omega)), blockByte_mapped hf hmapped] at hread
    cases hread

end

/-- After a seek into a file of less than 2^63 bytes, a read of up to 2048 bytes delivers the bytes
of their positions, over every input that serves all blocks, exactly if the positions fit. -/
theorem readsPositions_iff {f g : UdfFile} {offset whence r : Int} {bytes : UInt64}
    (hf : g.contentInline = false) (hlen : g.fe.length.toNat < 2 ^ 63) (hoff : offset < 2 ^ 63)
    (hseek : udfreadFileSeek g offset whence = .ok (r, f)) (hr : 0 ≤ r)
    (hpos : r < g.fe.length.toNat) (hb : 1 ≤ bytes.toNat) (hb' : bytes.toNat ≤ 2048) :
    ReadsPositions f bytes ↔ PositionsFit f (rest f bytes.toNat) := by
  rcases udfreadFileSeek_cases hoff hseek with ⟨hneg, -⟩ | ⟨hres, hsame, hv⟩
  · omega
  · have hfe : f.fe = g.fe := hsame.2
    have hf' : f.contentInline = false := (contentInline_same hsame).trans hf
    have hlen' : f.fe.length.toNat < 2 ^ 63 := by rw [hfe]; exact hlen
    have hpos' : f.pos.toNat < f.fe.length.toNat := by rw [hfe]; omega
    exact ⟨fit_of_readsPositions hf' hlen' hpos' hv hb hb',
      readsPositions_of_fit hf' hlen' hpos' hv hb hb'⟩

theorem readsPositions_iff_sparse :
    ReadsPositions { UdfFile.sparse 4096 with pos := 100 } 10 ↔
      PositionsFit { UdfFile.sparse 4096 with pos := 100 }
        (rest { UdfFile.sparse 4096 with pos := 100 } (10 : UInt64).toNat) :=
  readsPositions_iff (g := .sparse 4096) (r := 100) rfl (by decide) (show (100 : Int) < 2 ^ 63 by decide)
    (show udfreadFileSeek (.sparse 4096) 100 seekSet = _ from rfl) (by decide) (by decide) (by decide)
    (by decide)

/-- A file of 2^43 + 10 bytes with one recorded block, at address 300. -/
def UdfFile.farTail : UdfFile :=
  .fresh .zero
    { length := 8796093022218, fileType := 5,
      u := .ads .long [{ lba := 300, length := 2048, extentType := 0, partition := 0 }] }

/-- At position 2^43 of that file, in block 2^32, a read delivers the first byte of block 0. -/
theorem farTail_reads_start :
    udfreadFileSeek .farTail 8796093022208 seekSet =
        .ok (8796093022208, { UdfFile.farTail with pos := 8796093022208 }) ∧
      (∃ f' mem', udfreadFileRead (BlockInput.full fun _ _ => 1) 1
          { UdfFile.farTail with pos := 8796093022208 } (fun _ => 0) 0 1 () =
            .ok ((1, f', mem'), ()) ∧ mem' 0 = 1) ∧
      positionByte (fun _ _ => 1) { UdfFile.farTail with pos := 8796093022208 } 8796093022208 = 0 ∧
      ¬ ReadsPositions { UdfFile.farTail with pos := 8796093022208 } 1 := by
  refine ⟨rfl, ⟨_, _, rfl, rfl⟩, by decide, fun h => ?_⟩
  have hfit := fit_of_readsPositions rfl (by decide) (by decide) rfl (by decide) (by decide) h
  have hfar := (hfit (2 ^ 32) (.inl (by decide))).2 (le_refl _)
  revert hfar
  decide

end UdfRead
