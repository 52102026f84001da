import UdfRead.ReadBlocks

/-!
# UdfRead.ByteStream

`udfread_file_read` on files of up to 2^32 - 1 blocks. `Cached` is the invariant of the handle: a
valid temporary block is the one the position lies in, unless the position is at the start of a
block. Each branch of `_read` keeps it and stores bytes of the file's content (`readChunk_spec`),
and so does the chunk loop (`readChunks_spec`).
-/

namespace UdfRead

open CModel

/-- Byte `x` of the logical content: of an inline file its bytes and then zeros, else of the block
the byte lies in. -/
def logicalByte (media : Media) (f : UdfFile) (x : Nat) : UInt8 :=
  match f.fe.u with
  | .data content => content.getD x 0
  | .ads _ _ => blockByte media f (UInt32.ofNat (x / 2048)) (x % 2048)

/-- Block number 2^32 - 1 is not needed for the file. -/
def UdfFile.InRange (f : UdfFile) : Prop := f.fe.length.toNat ≤ (2 ^ 32 - 1) * 2048

/-- The two handles differ in position and cache at most. -/
def UdfFile.Same (f g : UdfFile) : Prop := f.part = g.part ∧ f.fe = g.fe

/-- `num_ad` and `information_length` are 32-bit counters. -/
def FileEntry.Sized (fe : FileEntry) : Prop :=
  match fe.u with
  | .ads _ ad => ad.length < 2 ^ 32
  | .data content => content.length < 2 ^ 32

/-- While the position is inside of a block, a valid temporary block is that block. -/
def Cached (media : Media) (f : UdfFile) : Prop :=
  f.contentInline = false → f.blockValid = true → f.pos.toNat % 2048 ≠ 0 →
    ∀ o, o < 2048 → f.tmp o = blockByte media f (UInt32.ofNat (f.pos.toNat / 2048)) o

section

variable {σ : Type} {I : BlockInput σ} {media : Media} {f g : UdfFile}

theorem UdfFile.Same.refl (f : UdfFile) : f.Same f := ⟨rfl, rfl⟩

theorem UdfFile.Same.trans {h : UdfFile} (hfg : f.Same g) (hgh : g.Same h) : f.Same h :=
  ⟨hfg.1.trans hgh.1, hfg.2.trans hgh.2⟩

theorem fileLba_same (h : f.Same g) (b : UInt32) : fileLba f b = fileLba g b := by
  unfold fileLba UdfFile.ads
  rw [h.1, h.2]

theorem contentInline_same (h : f.Same g) : f.contentInline = g.contentInline := by
  unfold UdfFile.contentInline
  rw [h.2]

theorem blockByte_same (h : f.Same g) (b : UInt32) (o : Nat) :
    blockByte media f b o = blockByte media g b o := by
  unfold blockByte udfreadFileLba
  rw [contentInline_same h, fileLba_same h]

theorem logicalByte_same (h : f.Same g) (x : Nat) :
    logicalByte media f x = logicalByte media g x := by
  unfold logicalByte
  rw [h.2]
  split
  · rfl
  · exact blockByte_same h _ _

/-- The content of a file that is not inline, block by block. -/
theorem logicalByte_block (hf : f.contentInline = false) {b o : Nat} (ho : o < 2048) :
    logicalByte media f (2048 * b + o) = blockByte media f (UInt32.ofNat b) o := by
  unfold UdfFile.contentInline at hf
  unfold logicalByte
  cases hu : f.fe.u with
  | ads t ad =>
    simp only []
    rw [show (2048 * b + o) / 2048 = b by omega, show (2048 * b + o) % 2048 = o by omega]
  | data content => simp [hu] at hf

/-! ## Requests for blocks of the file -/

theorem lengthFits_inRange (hlen : f.InRange) : LengthFits f := by
  unfold UdfFile.InRange at hlen
  rw [LengthFits, signed64_of_lt (by omega)]
  omega

theorem blocksFit_inRange (hlen : f.InRange) {fileBlock numBlocks : UInt32}
    (hb : fileBlock.toNat + numBlocks.toNat ≤ 2 ^ 32) (hn : numBlocks.toNat ≤ 2 ^ 21) :
    BlocksFit f fileBlock numBlocks where
  stretch := fun k hk _ => by omega
  noOverflow := fun k _ _ => lengthFits_inRange hlen

/-! ## One chunk -/

/-- What a call leaves behind that was asked for `bytes` bytes after `off` bytes at address `buf`:
nothing read and the position where it was, or `count` bytes of the content stored and the position
behind them. -/
structure Delivered (media : Media) (f : UdfFile) (mem : Mem) (buf off bytes : Nat) (r : Int)
    (f' : UdfFile) (mem' : Mem) : Prop where
  same : f'.Same f
  cached : Cached media f'
  frame : ∀ x, x < buf + off ∨ buf + off + bytes ≤ x → mem' x = mem x
  result : (off = 0 ∧ r = -1 ∧ f'.pos = f.pos) ∨
    ∃ count : Nat, r = (off + count : Nat) ∧ (0 < bytes → 0 < off + count) ∧ count ≤ bytes ∧
      f'.pos.toNat = f.pos.toNat + count ∧
      mem'.Holds (buf + off) count (logicalByte media f) f.pos.toNat

theorem readTmp_spec (hI : I.Serves media) (hf : f.contentInline = false) (hlen : f.InRange)
    {fileBlock : UInt32} (hb : fileBlock.toNat < 2 ^ 32 - 1) (s : σ) :
    ∃ ok f' s', readTmp I f fileBlock s = .ok ((ok, f'), s') ∧ f'.Same f ∧ f'.pos = f.pos ∧
      (ok = false → f'.blockValid = f.blockValid) ∧
      (ok = true → f'.blockValid = true ∧
        ∀ o, o < 2048 → f'.tmp o = blockByte media f fileBlock o) := by
  obtain ⟨n, tmp, s', hrun, hread⟩ := udfreadReadBlocks_fit hI hf
    (blocksFit_inRange hlen (show fileBlock.toNat + (1 : UInt32).toNat ≤ 2 ^ 32 by simp; omega)
      (by simp)) f.tmp 0 0 s
  unfold readTmp
  rw [Proc.bind_of_ok hrun]
  by_cases hn : n = 1
  · refine ⟨true, { f with block := some tmp, blockValid := true }, s', by simp [hn], ⟨rfl, rfl⟩,
      rfl, by simp, fun _ => ⟨rfl, fun o ho => ?_⟩⟩
    have := (hread.bytes 0 (le_refl 0) (by simp [hn])).2 o ho
    simpa [UdfFile.tmp] using this
  · exact ⟨false, { f with block := some tmp }, s', by simp [hn], ⟨rfl, rfl⟩, rfl, fun _ => rfl,
      by simp⟩

/-- The temporary block for a position inside of a block: the valid one, or a new one. -/
theorem validTmp_spec (hI : I.Serves media) (hf : f.contentInline = false) (hlen : f.InRange)
    (hc : Cached media f) (hoff : f.pos.toNat % 2048 ≠ 0) {fileBlock : UInt32}
    (hfb : fileBlock.toNat = f.pos.toNat / 2048) (hb : fileBlock.toNat < 2 ^ 32 - 1) (s : σ) :
    ∃ ok f' s', validTmp I f fileBlock s = .ok ((ok, f'), s') ∧ f'.Same f ∧ f'.pos = f.pos ∧
      (ok = false → f'.blockValid = false) ∧
      (ok = true → ∀ o, o < 2048 → f'.tmp o = blockByte media f fileBlock o) := by
  unfold validTmp
  cases hv : f.blockValid with
  | true =>
    refine ⟨true, f, s, rfl, .refl f, rfl, by simp, fun _ o ho => ?_⟩
    rw [hc hf hv hoff o ho, ← hfb, UInt32.ofNat_toNat]
  | false =>
    obtain ⟨ok, f', s', hrun, hsame, hpos, hfail, hok⟩ := readTmp_spec hI hf hlen hb s
    exact ⟨ok, f', s', hrun, hsame, hpos, fun h => (hfail h).trans hv, fun h => (hok h).2⟩

/-- The position of a handle inside of the file, as block number and offset. -/
theorem pos_split (hlen : f.InRange) (hpos : f.pos.toNat < f.fe.length.toNat) :
    (f.pos / 2048).toUInt32.toNat = f.pos.toNat / 2048 ∧ f.pos.toNat / 2048 < 2 ^ 32 - 1 ∧
      (f.pos % 2048).toNat = f.pos.toNat % 2048 := by
  unfold UdfFile.InRange at hlen
  have hd : (f.pos / 2048).toNat = f.pos.toNat / 2048 := UInt64.toNat_div _ _
  refine ⟨?_, by omega, UInt64.toNat_mod _ _⟩
  rw [UInt64.toNat_toUInt32, hd, Nat.mod_eq_of_lt (by omega)]

theorem readChunk_middle (hI : I.Serves media) (hf : f.contentInline = false) (hlen : f.InRange)
    (hc : Cached media f) {bytes : UInt64} (hb : 0 < bytes.toNat)
    (hpos : f.pos.toNat + bytes.toNat ≤ f.fe.length.toNat) (hoff : f.pos.toNat % 2048 ≠ 0)
    (mem : Mem) (buf : Nat) (s : σ) :
    ∃ r f' mem' s', readChunk I f mem buf bytes s = .ok ((r, f', mem'), s') ∧
      Delivered media f mem buf 0 bytes.toNat r f' mem' := by
  obtain ⟨hfb, hfb', hmod⟩ := pos_split hlen (by omega)
  have hlt := f.fe.length.toNat_lt
  have hne : f.pos % 2048 ≠ 0 := fun h => hoff (by rw [← hmod, h]; rfl)
  obtain ⟨ok, f', s', hrun, hsame, hpos', hfail, hok⟩ := validTmp_spec hI hf hlen hc hoff hfb
    (by omega) s
  rw [readChunk, if_pos hne, Proc.bind_of_ok hrun]
  cases ok with
  | false =>
    refine ⟨-1, f', mem, s', rfl, hsame, fun _ hv => ?_, fun _ _ => rfl, .inl ⟨rfl, rfl, hpos'⟩⟩
    rw [hfail rfl] at hv
    cases hv
  | true =>
    obtain ⟨chunk, hchunk⟩ : ∃ chunk, min (2048 - f.pos % 2048) bytes = chunk := ⟨_, rfl⟩
    have hsz : chunk.toNat = min (2048 - f.pos.toNat % 2048) bytes.toNat := by
      rw [← hchunk, UInt64.toNat_min, UInt64.toNat_sub_of_le, hmod]
      · rfl
      · rw [UInt64.le_iff_toNat_le, hmod]
        show f.pos.toNat % 2048 ≤ 2048
        omega
    have hadd : (f'.pos + chunk).toNat = f.pos.toNat + chunk.toNat := by
      rw [hpos', UInt64.toNat_add, Nat.mod_eq_of_lt (by omega)]
    have htmp : ∀ o, o < 2048 →
        f'.tmp o = blockByte media f (UInt32.ofNat (f.pos.toNat / 2048)) o := by
      intro o ho
      rw [hok rfl o ho, ← hfb, UInt32.ofNat_toNat]
    simp only [hchunk]
    refine ⟨_, { f' with pos := f'.pos + chunk }, _, s', rfl, ⟨hsame.1, hsame.2⟩,
      fun _ _ hmid o ho => ?_, fun x hx => Mem.blit_out (by omega),
      .inr ⟨_, by rw [Nat.zero_add], by omega, by omega, hadd, Mem.holds_blit fun k hk => ?_⟩⟩
    · -- the new position is in the same block, unless it is at the start of the next
      have hs : ({ f' with pos := f'.pos + chunk } : UdfFile).Same f := ⟨hsame.1, hsame.2⟩
      have hmid' : (f'.pos + chunk).toNat % 2048 ≠ 0 := hmid
      have hdiv : (f'.pos + chunk).toNat / 2048 = f.pos.toNat / 2048 := by omega
      rw [blockByte_same hs]
      exact (htmp o ho).trans (by rw [← hdiv])
    · rw [hmod, htmp _ (by omega), ← logicalByte_block hf (by omega)]
      exact congrArg _ (by omega)

theorem readChunk_blocks (hI : I.Serves media) (hf : f.contentInline = false) (hlen : f.InRange)
    {bytes : UInt64} (hb : 2048 ≤ bytes.toNat) (hb' : bytes.toNat < 2 ^ 32)
    (hpos : f.pos.toNat + bytes.toNat ≤ f.fe.length.toNat) (hoff : f.pos.toNat % 2048 = 0)
    (mem : Mem) (buf : Nat) (s : σ) :
    ∃ r f' mem' s', readChunk I f mem buf bytes s = .ok ((r, f', mem'), s') ∧
      Delivered media f mem buf 0 bytes.toNat r f' mem' := by
  obtain ⟨hfb, hfb', hmod⟩ := pos_split hlen (by omega)
  have hlt := f.fe.length.toNat_lt
  have hlen' := hlen
  unfold UdfFile.InRange at hlen'
  have hz : f.pos % 2048 = 0 := UInt64.toNat_inj.mp (by rw [hmod, hoff]; rfl)
  have hnum : (bytes / 2048).toUInt32.toNat = bytes.toNat / 2048 := by
    rw [UInt64.toNat_toUInt32, UInt64.toNat_div]
    show bytes.toNat / 2048 % 2 ^ 32 = _
    omega
  obtain ⟨n, mem', s', hrun, hread⟩ := udfreadReadBlocks_fit hI hf
    (blocksFit_inRange hlen (show (f.pos / 2048).toUInt32.toNat + (bytes / 2048).toUInt32.toNat ≤ _
      by omega) (by omega)) mem buf 0 s
  rw [readChunk, if_neg (by simp [hz]), if_pos (by rw [UInt64.le_iff_toNat_le]; exact hb),
    Proc.bind_of_ok hrun]
  have hnn := hread.le_num
  have hframe : ∀ x, x < buf ∨ buf + bytes.toNat ≤ x → mem' x = mem x :=
    fun x hx => hread.frame x (by omega)
  by_cases hn : n < 1
  · exact ⟨-1, f, mem', s', by simp [hn], .refl f, fun _ _ h => absurd hoff h, hframe,
      .inl ⟨rfl, rfl, rfl⟩⟩
  · have hn' : 0 < n.toNat := by
      by_contra hc
      exact hn (UInt32.lt_iff_toNat_lt.mpr (by simp; omega))
    have hsz : (n * 2048).toNat = n.toNat * 2048 := by
      rw [UInt32.toNat_mul]
      show n.toNat * 2048 % 2 ^ 32 = _
      omega
    have hadd : (f.pos + (n * 2048).toUInt64).toNat = f.pos.toNat + n.toNat * 2048 := by
      rw [UInt64.toNat_add, UInt32.toNat_toUInt64, hsz, Nat.mod_eq_of_lt (by omega)]
    refine ⟨_, { f with pos := f.pos + (n * 2048).toUInt64 }, mem', s', by simp only [hn]; rfl,
      ⟨rfl, rfl⟩, fun _ _ hmid => ?_, hframe,
      .inr ⟨_, by rw [Nat.zero_add], by rw [hsz]; omega, by rw [hsz]; omega,
        by rw [hsz]; exact hadd, ?_⟩⟩
    · simp only [hadd] at hmid
      omega
    · rw [hsz]
      intro k hk
      have hbyte := (hread.bytes (k / 2048) (by omega) (by omega)).2 (k % 2048) (by omega)
      rw [← ofNat_toNat_add, hfb, ← logicalByte_block hf (by omega)] at hbyte
      rw [show buf + 0 + k = buf + 2048 * (k / 2048) + k % 2048 by omega, hbyte]
      exact congrArg _ (by omega)

theorem readChunk_begin (hI : I.Serves media) (hf : f.contentInline = false) (hlen : f.InRange)
    {bytes : UInt64} (hb : 0 < bytes.toNat) (hb' : bytes.toNat < 2048)
    (hpos : f.pos.toNat + bytes.toNat ≤ f.fe.length.toNat) (hoff : f.pos.toNat % 2048 = 0)
    (mem : Mem) (buf : Nat) (s : σ) :
    ∃ r f' mem' s', readChunk I f mem buf bytes s = .ok ((r, f', mem'), s') ∧
      Delivered media f mem buf 0 bytes.toNat r f' mem' := by
  obtain ⟨hfb, hfb', hmod⟩ := pos_split hlen (by omega)
  have hlt := f.fe.length.toNat_lt
  have hz : f.pos % 2048 = 0 := UInt64.toNat_inj.mp (by rw [hmod, hoff]; rfl)
  obtain ⟨ok, f', s', hrun, hsame, hpos', hfail, hok⟩ := readTmp_spec hI hf hlen
    (show (f.pos / 2048).toUInt32.toNat < 2 ^ 32 - 1 by omega) s
  rw [readChunk, if_neg (by simp [hz]), if_neg (by
    rw [UInt64.le_iff_toNat_le]; show ¬ 2048 ≤ bytes.toNat; omega), Proc.bind_of_ok hrun]
  cases ok with
  | false =>
    refine ⟨-1, f', mem, s', rfl, hsame, fun _ _ h => ?_, fun _ _ => rfl, .inl ⟨rfl, rfl, hpos'⟩⟩
    rw [hpos'] at h
    exact absurd hoff h
  | true =>
    have htmp : ∀ o, o < 2048 → f'.tmp o = blockByte media f (UInt32.ofNat (f.pos.toNat / 2048)) o := by
      intro o ho
      rw [(hok rfl).2 o ho, ← hfb, UInt32.ofNat_toNat]
    have hadd : (f'.pos + bytes).toNat = f.pos.toNat + bytes.toNat := by
      rw [hpos', UInt64.toNat_add, Nat.mod_eq_of_lt (by omega)]
    refine ⟨_, { f' with pos := f'.pos + bytes }, _, s', rfl, ⟨hsame.1, hsame.2⟩,
      fun _ _ hmid o ho => ?_, fun x hx => Mem.blit_out hx,
      .inr ⟨_, by rw [Nat.zero_add], by omega, le_refl _, hadd, Mem.holds_blit fun k hk => ?_⟩⟩
    · have hs : ({ f' with pos := f'.pos + bytes } : UdfFile).Same f := ⟨hsame.1, hsame.2⟩
      rw [blockByte_same hs]
      simp only [hadd] at hmid ⊢
      rw [show (f.pos.toNat + bytes.toNat) / 2048 = f.pos.toNat / 2048 by omega]
      exact htmp o ho
    · rw [htmp _ (by omega), ← logicalByte_block hf (by omega)]
      exact congrArg _ (by omega)

/-- `_read` delivers. -/
theorem readChunk_spec (hI : I.Serves media) (hf : f.contentInline = false) (hlen : f.InRange)
    (hc : Cached media f) {bytes : UInt64} (hb : 0 < bytes.toNat) (hb' : bytes.toNat < 2 ^ 32)
    (hpos : f.pos.toNat + bytes.toNat ≤ f.fe.length.toNat) (mem : Mem) (buf : Nat) (s : σ) :
    ∃ r f' mem' s', readChunk I f mem buf bytes s = .ok ((r, f', mem'), s') ∧
      Delivered media f mem buf 0 bytes.toNat r f' mem' := by
  by_cases hoff : f.pos.toNat % 2048 = 0
  · by_cases hblocks : 2048 ≤ bytes.toNat
    · exact readChunk_blocks hI hf hlen hblocks hb' hpos hoff mem buf s
    · exact readChunk_begin hI hf hlen hb (by omega) hpos hoff mem buf s
  · exact readChunk_middle hI hf hlen hc hb hpos hoff mem buf s

/-! ## The chunk loop -/

/-- A delivered chunk, and what the rest of the loop delivers behind it. -/
theorem Delivered.append {f' f'' : UdfFile} {mem mem' mem'' : Mem} {buf off bytes count : Nat}
    {r r' : Int} (h : Delivered media f mem (buf + off) 0 bytes r f' mem') (hr : r = count)
    (hcount : 0 < count)
    (h' : Delivered media f' mem' buf (off + count) (bytes - count) r' f'' mem'') :
    Delivered media f mem buf off bytes r' f'' mem'' := by
  rcases h.result with ⟨-, hneg, -⟩ | ⟨count', hcr, -, hle, hpos, hold⟩
  · omega
  · obtain rfl : count' = count := by omega
    refine ⟨h'.same.trans h.same, h'.cached, fun x hx => ?_, ?_⟩
    · rw [h'.frame x (by omega), h.frame x (by omega)]
    · rcases h'.result with ⟨hz, -, -⟩ | ⟨count'', hr', -, hle', hpos', hold'⟩
      · omega
      · refine .inr ⟨count' + count'', by omega, by omega, by omega, by omega, ?_⟩
        refine Mem.Holds.append (hold.of_eq fun x _ hx => h'.frame x (.inl (by omega))) ?_
        intro k hk
        have := hold' k hk
        rw [logicalByte_same h.same, hpos] at this
        rwa [show buf + off + count' = buf + (off + count') by omega]

/-- The loop delivers, or has less fuel than bytes to read. -/
theorem readChunks_spec (hI : I.Serves media) (buf : Nat) :
    ∀ (fuel : Nat) (f : UdfFile) (mem : Mem) (off : Nat) (bytes : UInt64) (s : σ),
      f.contentInline = false → f.InRange → Cached media f → bytes.toNat < 2 ^ 32 →
      f.pos.toNat + bytes.toNat ≤ f.fe.length.toNat →
      Res.Post (readChunks I buf fuel f mem off bytes s) (fuel < bytes.toNat) fun p =>
        Delivered media f mem buf off bytes.toNat p.1.1 p.1.2.1 p.1.2.2 := by
  have hdone : ∀ (f : UdfFile) (mem : Mem) (off : Nat), Cached media f →
      Delivered media f mem buf off 0 off f mem := fun f mem off hc =>
    ⟨.refl f, hc, fun _ _ => rfl, .inr ⟨0, rfl, by omega, le_refl 0, rfl, Mem.holds_zero⟩⟩
  intro fuel
  induction fuel with
  | zero =>
    intro f mem off bytes s hf hlen hc hb hpos
    rw [readChunks]
    by_cases hz : bytes > 0
    · rw [if_pos hz]
      exact UInt64.lt_iff_toNat_lt.mp hz
    · obtain rfl : bytes = 0 := UInt64.not_lt.mp hz |> UInt64.le_zero_iff.mp
      exact hdone f mem off hc
  | succ fuel ih =>
    intro f mem off bytes s hf hlen hc hb hpos
    rw [readChunks]
    by_cases hz : bytes > 0
    · have hb0 : 0 < bytes.toNat := UInt64.lt_iff_toNat_lt.mp hz
      obtain ⟨r, f', mem', s', hrun, hd⟩ := readChunk_spec hI hf hlen hc hb0 hb hpos mem (buf + off) s
      rw [if_neg (not_not_intro hz), Proc.bind_of_ok hrun]
      rcases hd.result with ⟨-, hr, hpos'⟩ | ⟨count, hr, hcount, hle, hpos', hold⟩
      · subst hr
        simp only [show ((-1 : Int) < 0) from by decide, if_true]
        by_cases hoff : off = 0
        · subst hoff
          rw [if_neg (by simp)]
          exact Res.post_ok.mpr ⟨hd.same, hd.cached, hd.frame, .inl ⟨rfl, rfl, hpos'⟩⟩
        · rw [if_pos hoff]
          exact Res.post_ok.mpr ⟨hd.same, hd.cached, hd.frame,
            .inr ⟨0, rfl, by omega, by omega, by rw [hpos']; rfl, Mem.holds_zero⟩⟩
      · have hr0 : ¬ r < 0 := by omega
        have hrc : r.toNat = count := by omega
        have hsub : (bytes - UInt64.ofNat r.toNat).toNat = bytes.toNat - count := by
          rw [hrc, UInt64.toNat_sub_of_le] <;>
            simp [UInt64.le_iff_toNat_le, UInt64.toNat_ofNat',
              Nat.mod_eq_of_lt (show count < 18446744073709551616 by omega)]
          exact hle
        simp only [hr0, if_false]
        have hnext := ih f' mem' (off + r.toNat) (bytes - UInt64.ofNat r.toNat) s'
          (by rw [contentInline_same hd.same, hf]) (by unfold UdfFile.InRange; rw [hd.same.2]; exact hlen)
          hd.cached (by omega) (by rw [hd.same.2]; omega)
        rw [hsub, hrc] at hnext
        rw [hrc]
        exact hnext.mono (fun h => by omega) fun p h => Delivered.append hd (by omega) (by omega) h
    · obtain rfl : bytes = 0 := UInt64.not_lt.mp hz |> UInt64.le_zero_iff.mp
      rw [if_pos hz]
      exact hdone f mem off hc

/-! ## The call -/

/-- The bytes a read of `bytes` bytes is limited to: none behind the end of the file. -/
def rest (f : UdfFile) (bytes : Nat) : Nat := min bytes (f.fe.length.toNat - f.pos.toNat)

theorem limitBytes_toNat (hlen : f.InRange) {bytes : UInt64} (hb : bytes.toNat < 2 ^ 32)
    (hpos : f.pos.toNat < f.fe.length.toNat) : (limitBytes f bytes).toNat = rest f bytes.toNat := by
  unfold UdfFile.InRange at hlen
  have hadd : (f.pos + bytes).toNat = f.pos.toNat + bytes.toNat := by
    rw [UInt64.toNat_add, Nat.mod_eq_of_lt (by omega)]
  unfold limitBytes rest
  by_cases h : f.pos + bytes > f.fe.length
  · have h' := UInt64.lt_iff_toNat_lt.mp h
    rw [if_pos h, UInt64.toNat_sub_of_le _ _ (UInt64.le_iff_toNat_le.mpr (by omega))]
    omega
  · have h' : ¬ f.fe.length.toNat < (f.pos + bytes).toNat := fun hc => h (UInt64.lt_iff_toNat_lt.mpr hc)
    rw [if_neg h]
    omega

/-- Inline content: what is left of it is copied, and zeros follow. -/
theorem readInline_spec {content : Bytes} (hu : f.fe.u = .data content) (hlen : f.InRange)
    (hsized : f.fe.Sized) {bytes : UInt64}
    (hpos : f.pos.toNat + bytes.toNat ≤ f.fe.length.toNat) (mem : Mem) (buf : Nat) :
    ∃ r f' mem', readInline f content mem buf bytes = .ok (r, f', mem') ∧
      Delivered media f mem buf 0 bytes.toNat r f' mem' := by
  unfold UdfFile.InRange at hlen
  have hcl : content.length < 2 ^ 32 := by
    unfold FileEntry.Sized at hsized
    rwa [hu] at hsized
  have hadd : (f.pos + bytes).toNat = f.pos.toNat + bytes.toNat := by
    rw [UInt64.toNat_add, Nat.mod_eq_of_lt (by omega)]
  have hil : (UInt64.ofNat content.length).toNat = content.length := by
    rw [UInt64.toNat_ofNat', Nat.mod_eq_of_lt (by omega)]
  have hinline : f.contentInline = true := by
    unfold UdfFile.contentInline
    rw [hu]
  have hbyte : ∀ x, logicalByte media f x = content.getD x 0 := by
    intro x
    unfold logicalByte
    rw [hu]
  obtain ⟨pad, hpad⟩ : ∃ pad : UInt64, (if f.pos + bytes > UInt64.ofNat content.length then
      if f.pos > UInt64.ofNat content.length then bytes
      else f.pos + bytes - UInt64.ofNat content.length else 0) = pad := ⟨_, rfl⟩
  have hpadn : pad.toNat = bytes.toNat - min bytes.toNat (content.length - f.pos.toNat) := by
    rw [← hpad]
    split
    · rename_i h
      have h' := UInt64.lt_iff_toNat_lt.mp h
      split
      · rename_i hp
        have hp' := UInt64.lt_iff_toNat_lt.mp hp
        omega
      · rename_i hp
        have hp' : ¬ content.length < f.pos.toNat := fun hc =>
          hp (UInt64.lt_iff_toNat_lt.mpr (by rwa [hil]))
        rw [UInt64.toNat_sub_of_le _ _ (UInt64.le_iff_toNat_le.mpr (by omega))]
        omega
    · rename_i h
      have h' : ¬ content.length < (f.pos + bytes).toNat := fun hc =>
        h (UInt64.lt_iff_toNat_lt.mpr (by rwa [hil]))
      show 0 = _
      omega
  have hcopy : (bytes - pad).toNat = min bytes.toNat (content.length - f.pos.toNat) := by
    rw [UInt64.toNat_sub_of_le _ _ (UInt64.le_iff_toNat_le.mpr (by omega))]
    omega
  have hdel : ∀ mem', (∀ x, x < buf ∨ buf + bytes.toNat ≤ x → mem' x = mem x) →
      (∀ k, k < bytes.toNat → mem' (buf + k) = content.getD (f.pos.toNat + k) 0) →
      Delivered media f mem buf 0 bytes.toNat bytes.toNat { f with pos := f.pos + bytes } mem' := by
    intro mem' hframe hread
    refine ⟨⟨rfl, rfl⟩, fun hc => ?_, hframe, .inr ⟨bytes.toNat, by rw [Nat.zero_add], by omega,
      le_refl _, hadd, fun k hk => ?_⟩⟩
    · have : f.contentInline = false := hc
      rw [hinline] at this
      cases this
    · rw [hbyte]
      exact hread k hk
  unfold readInline
  simp only [hpad]
  by_cases hlt : pad < bytes
  · have hlt' := UInt64.lt_iff_toNat_lt.mp hlt
    rw [if_pos hlt, slice_eq (by omega)]
    refine ⟨_, _, _, rfl, hdel _ (fun x hx => ?_) fun k hk => ?_⟩
    · rw [Mem.blit_out (by omega), Mem.blit_out (by omega)]
    · by_cases hk' : k < (bytes - pad).toNat
      · rw [Mem.blit_at hk']
        simp [List.getD_eq_getElem?_getD, hk']
      · rw [Mem.blit_out (by omega), Mem.blit_in (by omega) (by omega),
          List.getD_eq_default _ _ (by omega)]
  · have hlt' : ¬ pad.toNat < bytes.toNat := fun hc => hlt (UInt64.lt_iff_toNat_lt.mpr hc)
    rw [if_neg hlt]
    refine ⟨_, _, _, rfl, hdel _ (fun x hx => ?_) fun k hk => ?_⟩
    · rw [Mem.blit_out (by omega)]
    · rw [Mem.blit_in (by omega) (by omega), List.getD_eq_default _ _ (by omega)]

/-- `udfread_file_read` delivers what the file has left, or has less fuel than bytes to read. -/
theorem udfreadFileRead_spec (hI : I.Serves media) (hlen : f.InRange) (hsized : f.fe.Sized)
    (hc : Cached media f) {bytes : UInt64} (hb : bytes.toNat < 2 ^ 32) (fuel : Nat) (mem : Mem)
    (buf : Nat) (s : σ) :
    Res.Post (udfreadFileRead I fuel f mem buf bytes s) (fuel < bytes.toNat) fun p =>
      Delivered media f mem buf 0 (rest f bytes.toNat) p.1.1 p.1.2.1 p.1.2.2 := by
  unfold udfreadFileRead
  rw [if_neg (by omega)]
  by_cases hpos : f.pos ≥ f.fe.length
  · have hpos' := UInt64.le_iff_toNat_le.mp hpos
    rw [if_pos hpos, rest, show min bytes.toNat (f.fe.length.toNat - f.pos.toNat) = 0 by omega]
    exact Res.post_ok.mpr ⟨.refl f, hc, fun _ _ => rfl,
      .inr ⟨0, rfl, by omega, le_refl 0, rfl, Mem.holds_zero⟩⟩
  · have hpos' : f.pos.toNat < f.fe.length.toNat := by
      by_contra h
      exact hpos (UInt64.le_iff_toNat_le.mpr (by omega))
    have hlim := limitBytes_toNat hlen hb hpos'
    have hrest : rest f bytes.toNat ≤ f.fe.length.toNat - f.pos.toNat := Nat.min_le_right _ _
    have hrest' : rest f bytes.toNat ≤ bytes.toNat := Nat.min_le_left _ _
    rw [if_neg hpos]
    cases hu : f.fe.u with
    | data content =>
      obtain ⟨r, f', mem', hrun, hd⟩ : ∃ r f' mem',
          readInline f content mem buf (limitBytes f bytes) = .ok (r, f', mem') ∧
            Delivered media f mem buf 0 (limitBytes f bytes).toNat r f' mem' :=
        readInline_spec hu hlen hsized (by omega) mem buf
      rw [hlim] at hd
      simp only [hrun]
      exact Res.post_ok.mpr hd
    | ads t ad =>
      have hf : f.contentInline = false := by
        unfold UdfFile.contentInline
        rw [hu]
      have hsame : ({ f with block := some f.tmp } : UdfFile).Same f := ⟨rfl, rfl⟩
      have hc' : Cached media { f with block := some f.tmp } := by
        intro _ hv hmid o ho
        rw [blockByte_same hsame]
        exact hc hf hv hmid o ho
      have hspec := readChunks_spec hI buf fuel { f with block := some f.tmp } mem 0
        (limitBytes f bytes) s hf hlen hc' (by omega) (by show f.pos.toNat + _ ≤ f.fe.length.toNat; omega)
      rw [hlim] at hspec
      refine hspec.mono (fun h => by omega) fun p hd => ⟨hd.same.trans hsame, hd.cached, hd.frame, ?_⟩
      rcases hd.result with h | ⟨count, hr, h0, hle, hp, hold⟩
      · exact .inl h
      · refine .inr ⟨count, hr, h0, hle, hp, fun k hk => ?_⟩
        rw [hold k hk, logicalByte_same hsame]

end

end UdfRead
