import UdfRead.ReadsInPlace
import UdfRead.ByteStream
import UdfRead.Lib.Simulation

/-!
# UdfRead.LargeReads

Which requests `udfread_file_read` serves to the last byte over an input that never fails
(`readsExactly_iff`): those whose blocks are readable, and which have less than 2^32 bytes behind
the first partial block. From 2^32 bytes on, the byte count `num_blocks * UDF_BLOCK_SIZE` wraps:
2^21 blocks count as 0 bytes, and the chunk loop repeats.
-/

namespace UdfRead

open CModel

/-- The variables of the chunk loop. -/
structure ChunkState (σ : Type) where
  file : UdfFile
  mem : Mem
  off : Nat
  bytes : UInt64
  input : σ

/-- One iteration of the chunk loop, with the result of `_read`. -/
inductive ChunkStep {σ : Type} (I : BlockInput σ) (buf : Nat) :
    ChunkState σ → Int → ChunkState σ → Prop where
  | mk {st : ChunkState σ} {r : Int} {f' : UdfFile} {mem' : Mem} {s' : σ} : st.bytes > 0 →
      readChunk I st.file st.mem (buf + st.off) st.bytes st.input = .ok ((r, f', mem'), s') →
      ChunkStep I buf st r
        ⟨f', mem', st.off + r.toNat, st.bytes - UInt64.ofNat r.toNat, s'⟩

/-- The loop's variables before its first iteration. -/
def chunkStart {σ : Type} (f : UdfFile) (mem : Mem) (bytes : UInt64) (s : σ) : ChunkState σ :=
  ⟨{ f with block := some f.tmp }, mem, 0, limitBytes f bytes, s⟩

/-- Every iteration gets something, and as much as it consumes. -/
def Progress {σ : Type} (I : BlockInput σ) (buf : Nat) (start : ChunkState σ) : Prop :=
  ∀ rs st r st', Run (ChunkStep I buf) start rs st → ChunkStep I buf st r st' →
    0 < r ∧ (st'.file.pos.toNat : Int) = st.file.pos.toNat + r

/-- Over every input that never fails, the read ends, with all bytes up to the end of the file and
the position behind them, and every iteration of its loop makes progress. -/
def ReadsExactly (f : UdfFile) (bytes : UInt64) : Prop :=
  ∀ (σ : Type) (media : Media) (I : BlockInput σ), I.Serves media → I.NeverFails →
    ∀ (s : σ) (mem : Mem) (buf : Nat),
      (∃ fuel r f' mem' s', udfreadFileRead I fuel f mem buf bytes s = .ok ((r, f', mem'), s') ∧
        r = (rest f bytes.toNat : Nat) ∧ f'.pos.toNat = f.pos.toNat + rest f bytes.toNat) ∧
      (f.pos < f.fe.length → Progress I buf (chunkStart f mem bytes s))

/-- The `n` bytes at the position can be read: the block the position lies in, every block that
starts among them, and less than 2^32 of them behind the first partial block. -/
structure ReadFits (f : UdfFile) (n : Nat) : Prop where
  first : f.pos.toNat % 2048 ≠ 0 →
    f.blockValid = true ∨ Readable f (UInt32.ofNat (f.pos.toNat / 2048))
  small : n < 2 ^ 32 + (2048 - f.pos.toNat % 2048) % 2048
  blocks : ∀ b, f.pos.toNat ≤ 2048 * b → 2048 * b < f.pos.toNat + n → Readable f (UInt32.ofNat b)

section

variable {σ : Type} {I : BlockInput σ} {media : Media} {f f' : UdfFile} {n : Nat}

theorem readable_same (h : f.Same f') (b : UInt32) : Readable f b ↔ Readable f' b := by
  unfold Readable LengthFits
  rw [fileLba_same h, h.2]

theorem fileBlock_eq (pos : UInt64) : (pos / 2048).toUInt32 = UInt32.ofNat (pos.toNat / 2048) := by
  apply UInt32.toNat_inj.mp
  rw [UInt64.toNat_toUInt32, UInt64.toNat_div, UInt32.toNat_ofNat']
  rfl

theorem pos_mod (pos : UInt64) : (pos % 2048).toNat = pos.toNat % 2048 := UInt64.toNat_mod _ _

theorem pos_aligned {pos : UInt64} : pos % 2048 = 0 ↔ pos.toNat % 2048 = 0 := by
  rw [← pos_mod]
  exact ⟨fun h => by rw [h]; rfl, fun h => UInt64.toNat_inj.mp h⟩

theorem numBlocks_toNat (bytes : UInt64) :
    (bytes / 2048).toUInt32.toNat = bytes.toNat / 2048 % 2 ^ 32 := by
  rw [UInt64.toNat_toUInt32, UInt64.toNat_div]
  rfl

/-- The chunk of a partial block. -/
theorem chunkSize_toNat (f : UdfFile) (bytes : UInt64) :
    (min (2048 - f.pos % 2048) bytes).toNat = min (2048 - f.pos.toNat % 2048) bytes.toNat := by
  rw [UInt64.toNat_min, UInt64.toNat_sub_of_le, pos_mod]
  · rfl
  · rw [UInt64.le_iff_toNat_le, pos_mod]
    show f.pos.toNat % 2048 ≤ 2048
    omega

/-! ## Requests that fit -/

theorem udfreadReadBlocks_all (hI : I.Serves media) (hn : I.NeverFails)
    (hf : f.contentInline = false) {fileBlock numBlocks : UInt32}
    (hR : ∀ k, k < numBlocks.toNat → Readable f (fileBlock + UInt32.ofNat k)) (mem : Mem) (buf : Nat)
    (flags : Int) (s : σ) :
    ∃ mem' s', udfreadReadBlocks I f mem buf fileBlock numBlocks flags s =
      .ok ((numBlocks, mem'), s') := by
  rw [udfreadReadBlocks_eq_loop hf]
  obtain ⟨r, mem', s', hrun⟩ : ∃ r mem' s', readBlocksLoop I f buf fileBlock numBlocks flags
      numBlocks.toNat 0 mem s = .ok ((r, mem'), s') := by
    refine readBlocksLoop_returns hI (fun k hk hl => ?_) _ _ _ _ (by simp)
    exact ((hR k hk).resolve_left (not_not_intro hl)).1
  obtain ⟨_, hle, hstop⟩ := readBlocksLoop_neverFails hI hn (by simp) hrun
  obtain rfl : r = numBlocks := by
    by_contra hr
    have hne : r.toNat ≠ numBlocks.toNat := fun h => hr (UInt32.toNat_inj.mp h)
    have := hR r.toNat (by omega)
    rw [UInt32.ofNat_toNat] at this
    exact (hstop hr).1 this
  exact ⟨mem', s', hrun⟩

theorem readTmp_all (hI : I.Serves media) (hn : I.NeverFails) (hf : f.contentInline = false)
    {fileBlock : UInt32} (hR : Readable f fileBlock) (s : σ) :
    ∃ f' s', readTmp I f fileBlock s = .ok ((true, f'), s') ∧ f'.Same f ∧ f'.pos = f.pos ∧
      f'.blockValid = true := by
  have hR1 : ∀ k, k < (1 : UInt32).toNat → Readable f (fileBlock + UInt32.ofNat k) := by
    intro k hk
    obtain rfl : k = 0 := by simpa using hk
    simpa using hR
  obtain ⟨tmp, s', hrun⟩ := udfreadReadBlocks_all hI hn hf hR1 f.tmp 0 0 s
  refine ⟨{ f with block := some tmp, blockValid := true }, s', ?_, ⟨rfl, rfl⟩, rfl, rfl⟩
  unfold readTmp
  rw [Proc.bind_of_ok hrun]
  rfl

theorem validTmp_all (hI : I.Serves media) (hn : I.NeverFails) (hf : f.contentInline = false)
    {fileBlock : UInt32} (hR : f.blockValid = true ∨ Readable f fileBlock) (s : σ) :
    ∃ f' s', validTmp I f fileBlock s = .ok ((true, f'), s') ∧ f'.Same f ∧ f'.pos = f.pos ∧
      f'.blockValid = true := by
  unfold validTmp
  cases hv : f.blockValid with
  | true => exact ⟨f, s, rfl, .refl f, rfl, hv⟩
  | false =>
    rw [hv] at hR
    exact readTmp_all hI hn hf (hR.resolve_left (by simp)) s

/-- What an iteration leaves for the next ones. -/
structure ChunkFits (f : UdfFile) (n : Nat) (r : Int) (f' : UdfFile) : Prop where
  pos : 0 < r
  le : r ≤ n
  same : f'.Same f
  position : (f'.pos.toNat : Int) = f.pos.toNat + r
  rest : r < n → ReadFits f' (n - r.toNat)

theorem ReadFits.readable (h : ReadFits f n) (hsame : f'.Same f) {b : Nat}
    (hb : f.pos.toNat ≤ 2048 * b) (hb' : 2048 * b < f.pos.toNat + n) :
    Readable f' (UInt32.ofNat b) := (readable_same hsame _).mpr (h.blocks b hb hb')

/-- Behind the first partial block, the rest of the request starts at the start of a block. -/
theorem ReadFits.behind (h : ReadFits f n) (hsame : f'.Same f) {c : Nat} (hc : c ≤ n)
    (hpos : f'.pos.toNat = f.pos.toNat + c) (halign : f'.pos.toNat % 2048 = 0)
    (hsmall : n - c < 2 ^ 32) : ReadFits f' (n - c) where
  first := fun h => absurd halign h
  small := by omega
  blocks := fun b hb hb' => h.readable hsame (by omega) (by omega)

/-- `_read` gets all it can in one iteration of a request that fits. -/
theorem readChunk_fits (hI : I.Serves media) (hn : I.NeverFails) (hf : f.contentInline = false)
    {bytes : UInt64} (hb : 0 < bytes.toNat) (hfit : ReadFits f bytes.toNat)
    (hw : f.pos.toNat + bytes.toNat < 2 ^ 64) (mem : Mem) (buf : Nat) (s : σ) :
    ∃ r f' mem' s', readChunk I f mem buf bytes s = .ok ((r, f', mem'), s') ∧
      ChunkFits f bytes.toNat r f' := by
  have hfb := fileBlock_eq f.pos
  by_cases hoff : f.pos.toNat % 2048 = 0
  · have hz : f.pos % 2048 = 0 := pos_aligned.mpr hoff
    have hsmall := hfit.small
    rw [readChunk, if_neg (by simp [hz])]
    by_cases hblocks : 2048 ≤ bytes.toNat
    · -- full blocks
      have hnum : (bytes / 2048).toUInt32.toNat = bytes.toNat / 2048 := by
        rw [numBlocks_toNat, Nat.mod_eq_of_lt (by omega)]
      obtain ⟨mem', s', hrun⟩ := udfreadReadBlocks_all hI hn hf
        (show ∀ k, k < (bytes / 2048).toUInt32.toNat →
            Readable f ((f.pos / 2048).toUInt32 + UInt32.ofNat k) by
          intro k hk
          rw [hfb, ← UInt32.ofNat_add]
          exact hfit.blocks _ (by omega) (by omega)) mem buf 0 s
      rw [if_pos (by rw [UInt64.le_iff_toNat_le]; exact hblocks), Proc.bind_of_ok hrun]
      have hge : ¬ (bytes / 2048).toUInt32 < 1 := by
        rw [UInt32.lt_iff_toNat_lt, hnum]
        simp
        omega
      have hsz : ((bytes / 2048).toUInt32 * 2048).toNat = bytes.toNat / 2048 * 2048 := by
        rw [UInt32.toNat_mul, hnum]
        show _ * 2048 % 2 ^ 32 = _
        omega
      have hadd : (f.pos + ((bytes / 2048).toUInt32 * 2048).toUInt64).toNat =
          f.pos.toNat + bytes.toNat / 2048 * 2048 := by
        rw [UInt64.toNat_add, UInt32.toNat_toUInt64, hsz, Nat.mod_eq_of_lt (by omega)]
      simp only [hge, if_false]
      refine ⟨_, _, _, s', rfl, ?_⟩
      rw [hsz]
      refine ⟨by omega, by omega, ⟨rfl, rfl⟩, by simp only [hadd]; omega, fun hlt => ?_⟩
      have hsame' : ({ f with pos := f.pos + ((bytes / 2048).toUInt32 * 2048).toUInt64 } :
          UdfFile).Same f := ⟨rfl, rfl⟩
      have hrest := hfit.behind hsame' (by omega) hadd (by simp only [hadd]; omega) (by omega)
      rwa [Int.toNat_natCast]
    · -- the beginning of a block
      obtain ⟨f', s', hrun, hsame, hpos, hv⟩ := readTmp_all hI hn hf
        (show Readable f (f.pos / 2048).toUInt32 by
          rw [hfb]; exact hfit.blocks _ (by omega) (by omega)) s
      have hadd : (f'.pos + bytes).toNat = f.pos.toNat + bytes.toNat := by
        rw [hpos, UInt64.toNat_add, Nat.mod_eq_of_lt hw]
      rw [if_neg (by rw [UInt64.le_iff_toNat_le]; exact hblocks), Proc.bind_of_ok hrun]
      exact ⟨_, _, _, s', rfl, by omega, by omega, ⟨hsame.1, hsame.2⟩, by simp only [hadd]; omega,
        fun hlt => absurd hlt (by omega)⟩
  · -- the middle of a block
    have hne : f.pos % 2048 ≠ 0 := fun h => hoff (pos_aligned.mp h)
    obtain ⟨f', s', hrun, hsame, hpos, hv⟩ := validTmp_all hI hn hf
      (show f.blockValid = true ∨ Readable f (f.pos / 2048).toUInt32 by
        rw [hfb]; exact hfit.first hoff) s
    obtain ⟨chunk, hchunk⟩ : ∃ chunk, min (2048 - f.pos % 2048) bytes = chunk := ⟨_, rfl⟩
    have hsz : chunk.toNat = min (2048 - f.pos.toNat % 2048) bytes.toNat := by
      rw [← hchunk, chunkSize_toNat]
    have hadd : (f'.pos + chunk).toNat = f.pos.toNat + chunk.toNat := by
      rw [hpos, UInt64.toNat_add, Nat.mod_eq_of_lt (by omega)]
    rw [readChunk, if_pos hne, Proc.bind_of_ok hrun]
    simp only [hchunk]
    refine ⟨chunk.toNat, { f' with pos := f'.pos + chunk }, _, s', rfl, by omega, by omega,
      ⟨hsame.1, hsame.2⟩, by simp only [hadd]; omega, fun hlt => ?_⟩
    have hsmall := hfit.small
    have halign : (f'.pos + chunk).toNat % 2048 = 0 := by omega
    have hsame' : ({ f' with pos := f'.pos + chunk } : UdfFile).Same f := ⟨hsame.1, hsame.2⟩
    have hrest := hfit.behind hsame' (by omega) hadd halign (by omega)
    rwa [Int.toNat_natCast]

/-- What the loop keeps: the rest of the request fits. -/
structure FitState (st : ChunkState σ) : Prop where
  notInline : st.file.contentInline = false
  fits : 0 < st.bytes.toNat → ReadFits st.file st.bytes.toNat
  noWrap : st.file.pos.toNat + st.bytes.toNat < 2 ^ 64

theorem bytes_sub {bytes : UInt64} {r : Int} (h : 0 < r) (hle : r ≤ bytes.toNat) :
    (bytes - UInt64.ofNat r.toNat).toNat = bytes.toNat - r.toNat := by
  have hlt := bytes.toNat_lt
  have hr : (UInt64.ofNat r.toNat).toNat = r.toNat := by
    rw [UInt64.toNat_ofNat', Nat.mod_eq_of_lt (by omega)]
  rw [UInt64.toNat_sub_of_le _ _ (UInt64.le_iff_toNat_le.mpr (by omega)), hr]

theorem FitState.next {st : ChunkState σ} (h : FitState st) {r : Int} {f' : UdfFile} {mem' : Mem}
    {s' : σ} (hc : ChunkFits st.file st.bytes.toNat r f') :
    FitState ⟨f', mem', st.off + r.toNat, st.bytes - UInt64.ofNat r.toNat, s'⟩ := by
  obtain ⟨hpos, hle, hsame, hposition, hrest⟩ := hc
  have hsub := bytes_sub hpos hle
  have hw := h.noWrap
  refine ⟨(contentInline_same hsame).trans h.notInline, ?_, ?_⟩
  · simp only [hsub]
    exact fun h => hrest (by omega)
  · simp only [hsub]
    omega

/-- The step: an iteration makes progress and keeps the rest of the request fitting. -/
theorem chunkStep_fits (hI : I.Serves media) (hn : I.NeverFails) {buf : Nat} {st st' : ChunkState σ}
    {r : Int} (h : FitState st) (hstep : ChunkStep I buf st r st') :
    (0 < r ∧ (st'.file.pos.toNat : Int) = st.file.pos.toNat + r) ∧ FitState st' := by
  cases hstep with
  | mk hb hrun =>
    have hb' := UInt64.lt_iff_toNat_lt.mp hb
    obtain ⟨r', f', mem', s', hrun', hc⟩ := readChunk_fits hI hn h.notInline hb' (h.fits hb')
      h.noWrap st.mem (buf + st.off) st.input
    rw [hrun'] at hrun
    cases hrun
    exact ⟨⟨hc.pos, hc.position⟩, h.next hc⟩

theorem progress_of_fits (hI : I.Serves media) (hn : I.NeverFails) {buf : Nat} {start : ChunkState σ}
    (h : FitState start) : Progress I buf start := by
  intro rs st r st' hrun hstep
  exact (chunkStep_fits hI hn (hrun.invariant (fun _ _ _ h hs => (chunkStep_fits hI hn h hs).2) h)
    hstep).1

/-- The run: the loop gets all bytes of a request that fits. -/
theorem readChunks_fits (hI : I.Serves media) (hn : I.NeverFails) (buf : Nat) :
    ∀ (fuel : Nat) (st : ChunkState σ), FitState st → st.bytes.toNat ≤ fuel →
      ∃ f' mem' s', readChunks I buf fuel st.file st.mem st.off st.bytes st.input =
          .ok (((st.off + st.bytes.toNat : Nat), f', mem'), s') ∧
        f'.pos.toNat = st.file.pos.toNat + st.bytes.toNat := by
  have hdone : ∀ st : ChunkState σ, ¬ st.bytes > 0 → st.bytes.toNat = 0 := by
    intro st h
    by_contra hc
    exact h (UInt64.lt_iff_toNat_lt.mpr (by simp; omega))
  intro fuel
  induction fuel with
  | zero =>
    intro st h hfuel
    have hz : ¬ st.bytes > 0 := fun hc => by
      have := UInt64.lt_iff_toNat_lt.mp hc
      simp at this
      omega
    rw [readChunks, if_neg hz, hdone st hz]
    exact ⟨st.file, st.mem, st.input, rfl, rfl⟩
  | succ fuel ih =>
    intro st h hfuel
    rw [readChunks]
    by_cases hb : st.bytes > 0
    · have hb' : 0 < st.bytes.toNat := UInt64.lt_iff_toNat_lt.mp hb
      obtain ⟨r, f', mem', s', hrun, hc⟩ := readChunk_fits hI hn h.notInline hb' (h.fits hb') h.noWrap
        st.mem (buf + st.off) st.input
      have hsub := bytes_sub hc.pos hc.le
      have hpos := hc.pos
      have hle := hc.le
      have hposition := hc.position
      rw [if_neg (not_not_intro hb), Proc.bind_of_ok hrun]
      simp only [show ¬ r < 0 from not_lt.mpr (le_of_lt hpos), if_false]
      have hnext : FitState ⟨f', mem', st.off + r.toNat, st.bytes - UInt64.ofNat r.toNat, s'⟩ :=
        h.next hc
      obtain ⟨f'', mem'', s'', hrun', hpos'⟩ := ih _ hnext (by simp only [hsub]; omega)
      simp only [hsub] at hrun' hpos'
      refine ⟨f'', mem'', s'', ?_, by omega⟩
      rw [hrun', show st.off + r.toNat + (st.bytes.toNat - r.toNat) = st.off + st.bytes.toNat by omega]
    · rw [if_pos hb, hdone st hb]
      exact ⟨st.file, st.mem, st.input, rfl, rfl⟩

/-! ## Any request -/

theorem readTmp_same {fileBlock : UInt32} {ok : Bool} {s s' : σ}
    (h : readTmp I f fileBlock s = .ok ((ok, f'), s')) :
    f'.Same f ∧ f'.pos = f.pos ∧ (ok = false → f'.blockValid = f.blockValid) := by
  unfold readTmp at h
  obtain ⟨⟨n, tmp⟩, s₁, hrun, h⟩ := Proc.bind_eq_ok.mp h
  by_cases hn : n = 1
  · simp only [hn, ne_eq, not_true_eq_false, if_false] at h
    cases h
    exact ⟨⟨rfl, rfl⟩, rfl, by simp⟩
  · simp only [ne_eq, hn, not_false_eq_true, if_true] at h
    cases h
    exact ⟨⟨rfl, rfl⟩, rfl, fun _ => rfl⟩

theorem validTmp_same {fileBlock : UInt32} {ok : Bool} {s s' : σ}
    (h : validTmp I f fileBlock s = .ok ((ok, f'), s')) :
    f'.Same f ∧ f'.pos = f.pos ∧ (ok = false → f'.blockValid = false) := by
  unfold validTmp at h
  cases hv : f.blockValid with
  | true =>
    rw [hv] at h
    cases h
    exact ⟨.refl f, rfl, by simp⟩
  | false =>
    rw [hv] at h
    obtain ⟨hsame, hpos, hfail⟩ := readTmp_same h
    exact ⟨hsame, hpos, fun hok => (hfail hok).trans hv⟩

theorem readTmp_readable (hI : I.Serves media) (hf : f.contentInline = false) {fileBlock : UInt32}
    {s s' : σ} (h : readTmp I f fileBlock s = .ok ((true, f'), s')) : Readable f fileBlock := by
  unfold readTmp at h
  obtain ⟨⟨n, tmp⟩, s₁, hrun, h⟩ := Proc.bind_eq_ok.mp h
  by_cases hn : n = 1
  · subst hn
    rw [udfreadReadBlocks_eq_loop hf] at hrun
    exact readBlocksLoop_first hI hrun (by simp)
  · simp only [ne_eq, hn, not_false_eq_true, if_true] at h
    cases h

theorem validTmp_readable (hI : I.Serves media) (hf : f.contentInline = false) {fileBlock : UInt32}
    {s s' : σ} (h : validTmp I f fileBlock s = .ok ((true, f'), s')) :
    f.blockValid = true ∨ Readable f fileBlock := by
  unfold validTmp at h
  cases hv : f.blockValid with
  | true => exact .inl rfl
  | false =>
    rw [hv] at h
    exact .inr (readTmp_readable hI hf h)

/-- What a chunk can do, guards included: fail and leave the position, move it over the whole blocks
the block loop got, or move it inside of one block. -/
theorem readChunk_cases (hI : I.Serves media) (hf : f.contentInline = false) {bytes : UInt64}
    {mem mem' : Mem} {buf : Nat} {s s' : σ} {r : Int}
    (hrun : readChunk I f mem buf bytes s = .ok ((r, f', mem'), s')) :
    f'.Same f ∧
      ((r = -1 ∧ f'.pos = f.pos ∧ (f.pos.toNat % 2048 = 0 ∨ f'.blockValid = false)) ∨
        (f.pos.toNat % 2048 = 0 ∧ 2048 ≤ bytes.toNat ∧ ∃ g mem₁,
          readBlocksLoop I f buf (UInt32.ofNat (f.pos.toNat / 2048)) (bytes / 2048).toUInt32 0
            (bytes / 2048).toUInt32.toNat 0 mem s = .ok ((g, mem₁), s') ∧
          r = (g * 2048).toNat ∧ f'.pos = f.pos + (g * 2048).toUInt64) ∨
        ∃ n, n = min (2048 - f.pos.toNat % 2048) bytes.toNat ∧ r = n ∧
          f'.pos = f.pos + UInt64.ofNat n ∧
          (f.pos.toNat % 2048 = 0 → bytes.toNat < 2048) ∧
          (f.blockValid = true ∧ f.pos.toNat % 2048 ≠ 0 ∨
            Readable f (UInt32.ofNat (f.pos.toNat / 2048)))) := by
  have hfb := fileBlock_eq f.pos
  unfold readChunk at hrun
  by_cases hoff : f.pos.toNat % 2048 = 0
  · rw [if_neg (by simp [pos_aligned.mpr hoff])] at hrun
    by_cases hblocks : 2048 ≤ bytes.toNat
    · -- full blocks
      rw [if_pos (by rw [UInt64.le_iff_toNat_le]; exact hblocks)] at hrun
      obtain ⟨⟨g, mem₁⟩, s₁, hread, hrun⟩ := Proc.bind_eq_ok.mp hrun
      rw [udfreadReadBlocks_eq_loop hf, hfb] at hread
      by_cases hg : g < 1
      · simp only [hg, if_true] at hrun
        cases hrun
        exact ⟨.refl f, .inl ⟨rfl, rfl, .inl hoff⟩⟩
      · simp only [hg, if_false] at hrun
        cases hrun
        exact ⟨⟨rfl, rfl⟩, .inr (.inl ⟨hoff, hblocks, g, mem', hread, rfl, rfl⟩)⟩
    · -- the beginning of a block
      rw [if_neg (by rw [UInt64.le_iff_toNat_le]; exact hblocks)] at hrun
      obtain ⟨⟨ok, f₁⟩, s₁, htmp, hrun⟩ := Proc.bind_eq_ok.mp hrun
      obtain ⟨hsame, hpos, -⟩ := readTmp_same htmp
      cases ok with
      | false =>
        cases hrun
        exact ⟨hsame, .inl ⟨rfl, hpos, .inl hoff⟩⟩
      | true =>
        have hR := readTmp_readable hI hf htmp
        rw [hfb] at hR
        cases hrun
        exact ⟨⟨hsame.1, hsame.2⟩, .inr (.inr ⟨bytes.toNat, by omega, rfl, by simp [hpos],
          fun _ => by omega, .inr hR⟩)⟩
  · -- the middle of a block
    have hne : f.pos % 2048 ≠ 0 := fun h => hoff (pos_aligned.mp h)
    rw [if_pos hne] at hrun
    obtain ⟨⟨ok, f₁⟩, s₁, htmp, hrun⟩ := Proc.bind_eq_ok.mp hrun
    obtain ⟨hsame, hpos, hfail⟩ := validTmp_same htmp
    cases ok with
    | false =>
      cases hrun
      exact ⟨hsame, .inl ⟨rfl, hpos, .inr (hfail rfl)⟩⟩
    | true =>
      have hR := validTmp_readable hI hf htmp
      rw [hfb] at hR
      cases hrun
      exact ⟨⟨hsame.1, hsame.2⟩, .inr (.inr ⟨_, chunkSize_toNat f bytes, rfl, by simp [hpos],
        fun h => absurd h hoff, hR.imp (⟨·, hoff⟩) id⟩)⟩

/-- A chunk is of the same file and not longer than the request. -/
theorem readChunk_bounds (hI : I.Serves media) (hn : I.NeverFails) (hf : f.contentInline = false)
    {bytes : UInt64} {mem mem' : Mem} {buf : Nat} {s s' : σ} {r : Int}
    (hrun : readChunk I f mem buf bytes s = .ok ((r, f', mem'), s')) :
    f'.Same f ∧ r ≤ bytes.toNat := by
  obtain ⟨hsame, ⟨rfl, -⟩ | ⟨-, -, g, mem₁, hread, rfl, -⟩ | ⟨n, hn', rfl, -⟩⟩ :=
    readChunk_cases hI hf hrun
  · exact ⟨hsame, by omega⟩
  · obtain ⟨-, hgn, -⟩ := readBlocksLoop_neverFails hI hn (by simp) hread
    rw [numBlocks_toNat] at hgn
    have hsz : (g * 2048).toNat = g.toNat * 2048 % 2 ^ 32 := UInt32.toNat_mul _ _
    exact ⟨hsame, by omega⟩
  · exact ⟨hsame, by omega⟩

/-! ## Requests that do not fit -/

section Needs

variable {rest : UInt8}

/-- The count of `_read` for `g` blocks out of `q`, none left unread behind it but `n - r` bytes:
it is exact when less than 2^32 bytes are left. -/
theorem wrapped_count {q g n r : Nat} (hq : q = n / 2048) (hg : g ≤ q % 2 ^ 32)
    (hr : r = g * 2048 % 2 ^ 32) (hr0 : 0 < r) (hleft : r < n → n - r < 2 ^ 32)
    (hstop : g < q → g < q % 2 ^ 32 → r < n → 2048 * g = r → False) : n < 2 ^ 32 := by
  by_contra hn
  have hrn : r < n := by omega
  have := hleft hrn
  have hq32 : q % 2 ^ 32 = q := Nat.mod_eq_of_lt (by omega)
  by_cases h21 : g < 2 ^ 21
  · exact hstop (by omega) (by omega) hrn (by omega)
  · omega

theorem readChunk_needs (hf : f.contentInline = false) {bytes : UInt64} (hb : 0 < bytes.toNat)
    {mem mem' : Mem} {buf : Nat} {s s' : Unit} {r : Int}
    (hrun : readChunk (BlockInput.single media rest) f mem buf bytes s = .ok ((r, f', mem'), s'))
    (hr : 0 < r) (hpos : (f'.pos.toNat : Int) = f.pos.toNat + r)
    (hrest : r < bytes.toNat → ReadFits f' (bytes.toNat - r.toNat)) : ReadFits f bytes.toNat := by
  obtain ⟨hsame, hcase⟩ := readChunk_cases (BlockInput.single_serves _ _) hf hrun
  -- the blocks behind the chunk, by what the rest of the request needs
  have hbehind : ∀ b, f.pos.toNat + r.toNat ≤ 2048 * b → 2048 * b < f.pos.toNat + bytes.toNat →
      Readable f (UInt32.ofNat b) := by
    intro b hb1 hb2
    exact (readable_same hsame _).mp ((hrest (by omega)).blocks b (by omega) (by omega))
  have hsmall : r < bytes.toNat → f'.pos.toNat % 2048 = 0 → bytes.toNat - r.toNat < 2 ^ 32 := by
    intro hlt halign
    have := (hrest hlt).small
    rw [halign] at this
    simpa using this
  obtain ⟨rfl, -⟩ | ⟨hoff, hblocks, g, mem₁, hread, rfl, -⟩ | ⟨n, hn, rfl, -, hshort, hR⟩ := hcase
  · omega
  · obtain ⟨-, hgn, hstop⟩ := readBlocksLoop_neverFails (BlockInput.single_serves _ _)
      (BlockInput.single_neverFails _ _) (by simp) hread
    have hsz : (g * 2048).toNat = g.toNat * 2048 % 2 ^ 32 := UInt32.toNat_mul _ _
    rw [numBlocks_toNat] at hgn
    have hn : bytes.toNat < 2 ^ 32 := by
      refine wrapped_count rfl hgn hsz (by omega) (fun h => ?_) fun hgq hgm hlt hcount => ?_
      · have := hsmall (by omega) (by omega)
        omega
      · have hne : g ≠ (bytes / 2048).toUInt32 := fun h => by
          rw [h, numBlocks_toNat] at hgm
          omega
        refine (hstop hne).1 ?_
        have := hbehind (f.pos.toNat / 2048 + g.toNat) (by omega) (by omega)
        rwa [UInt32.ofNat_add, UInt32.ofNat_toNat] at this
    refine ⟨fun h => absurd hoff h, by omega, fun b hb1 hb2 => ?_⟩
    by_cases hbg : 2048 * b < f.pos.toNat + (g * 2048).toNat
    · have := single_readable hread (b - f.pos.toNat / 2048) (by omega)
      rwa [← UInt32.ofNat_add, show f.pos.toNat / 2048 + (b - f.pos.toNat / 2048) = b by omega]
        at this
    · exact hbehind b (by omega) hb2
  · refine ⟨fun _ => hR.imp And.left id, ?_, fun b hb1 hb2 => ?_⟩
    · by_cases hlt : n < bytes.toNat
      · have := hsmall (by omega) (by omega)
        omega
      · omega
    · by_cases hoff : f.pos.toNat % 2048 = 0
      · rw [show b = f.pos.toNat / 2048 by have := hshort hoff; omega]
        exact hR.resolve_left fun h => h.2 hoff
      · exact hbehind b (by omega) hb2

/-- A loop that returns with progress in every iteration gets all bytes, and they fit. -/
theorem readChunks_needs {buf : Nat} :
    ∀ (fuel : Nat) (st : ChunkState Unit) {R : Int} {f' : UdfFile} {mem' : Mem} {s' : Unit},
      st.file.contentInline = false →
      readChunks (BlockInput.single media rest) buf fuel st.file st.mem st.off st.bytes st.input =
        .ok ((R, f', mem'), s') →
      Progress (BlockInput.single media rest) buf st →
      R = (st.off + st.bytes.toNat : Nat) ∧ (0 < st.bytes.toNat → ReadFits st.file st.bytes.toNat) := by
  intro fuel
  induction fuel with
  | zero =>
    intro st R f' mem' s' hf hrun hprog
    rw [readChunks] at hrun
    by_cases hb : st.bytes > 0
    · rw [if_pos hb] at hrun
      cases hrun
    · rw [if_neg hb] at hrun
      have hz : ¬ 0 < st.bytes.toNat := fun h => hb (UInt64.lt_iff_toNat_lt.mpr h)
      cases hrun
      exact ⟨by omega, fun h => absurd h hz⟩
  | succ fuel ih =>
    intro st R f' mem' s' hf hrun hprog
    rw [readChunks] at hrun
    by_cases hb : st.bytes > 0
    · have hb' : 0 < st.bytes.toNat := UInt64.lt_iff_toNat_lt.mp hb
      rw [if_neg (not_not_intro hb)] at hrun
      obtain ⟨⟨r, f₁, mem₁⟩, s₁, hchunk, hrun⟩ := Proc.bind_eq_ok.mp hrun
      have hstep : ChunkStep (BlockInput.single media rest) buf st r _ := .mk hb hchunk
      obtain ⟨hr, hpos⟩ := hprog [] st r _ (.nil st) hstep
      obtain ⟨hsame, hle⟩ := readChunk_bounds (BlockInput.single_serves _ _)
        (BlockInput.single_neverFails _ _) hf hchunk
      simp only [show ¬ r < 0 from not_lt.mpr (le_of_lt hr), if_false] at hrun
      obtain ⟨hR, hfit⟩ := ih ⟨f₁, mem₁, st.off + r.toNat, st.bytes - UInt64.ofNat r.toNat, s₁⟩
        ((contentInline_same hsame).trans hf) hrun
        fun rs st' r' st'' hrun' => hprog (r :: rs) st' r' st'' (.cons hstep hrun')
      have hsub := bytes_sub hr hle
      simp only [hsub] at hR hfit
      exact ⟨by omega, fun _ => readChunk_needs hf hb' hchunk hr hpos fun h => hfit (by omega)⟩
    · rw [if_pos hb] at hrun
      have hz : ¬ 0 < st.bytes.toNat := fun h => hb (UInt64.lt_iff_toNat_lt.mpr h)
      cases hrun
      exact ⟨by omega, fun h => absurd h hz⟩

end Needs

/-! ## The call -/

theorem readFits_start (n : Nat) : ReadFits { f with block := some f.tmp } n ↔ ReadFits f n := by
  have hsame : ({ f with block := some f.tmp } : UdfFile).Same f := ⟨rfl, rfl⟩
  constructor
  · intro h
    exact ⟨fun hoff => (h.first hoff).imp id (readable_same hsame _).mp, h.small,
      fun b hb hb' => (readable_same hsame _).mp (h.blocks b hb hb')⟩
  · intro h
    exact ⟨fun hoff => (h.first hoff).imp id (readable_same hsame _).mpr, h.small,
      fun b hb hb' => (readable_same hsame _).mpr (h.blocks b hb hb')⟩

/-- The request is limited to what the file has left, unless position and size overflow. -/
theorem limitBytes_rest {bytes : UInt64} (hpos : f.pos.toNat < f.fe.length.toNat)
    (hb : 0 < bytes.toNat) :
    (limitBytes f bytes).toNat = rest f bytes.toNat ↔ f.pos.toNat + bytes.toNat < 2 ^ 64 := by
  have hlt := f.fe.length.toNat_lt
  have hblt := bytes.toNat_lt
  have hadd : (f.pos + bytes).toNat = (f.pos.toNat + bytes.toNat) % 2 ^ 64 := UInt64.toNat_add _ _
  unfold limitBytes rest
  by_cases h : f.pos + bytes > f.fe.length
  · have h' := UInt64.lt_iff_toNat_lt.mp h
    rw [if_pos h, UInt64.toNat_sub_of_le _ _ (UInt64.le_iff_toNat_le.mpr (by omega))]
    omega
  · have h' : ¬ f.fe.length.toNat < (f.pos + bytes).toNat := fun hc => h (UInt64.lt_iff_toNat_lt.mpr hc)
    rw [if_neg h]
    omega

theorem udfreadFileRead_eq_chunks (hf : f.contentInline = false) {bytes : UInt64}
    (hb : bytes.toNat < 2 ^ 63) (hpos : f.pos < f.fe.length) (fuel : Nat) (mem : Mem) (buf : Nat)
    (s : σ) :
    udfreadFileRead I fuel f mem buf bytes s =
      readChunks I buf fuel (chunkStart f mem bytes s).file mem 0 (limitBytes f bytes) s := by
  unfold udfreadFileRead
  rw [if_neg (by omega), if_neg (show ¬ f.pos ≥ f.fe.length from UInt64.not_le.mpr hpos)]
  unfold UdfFile.contentInline at hf
  cases hu : f.fe.u with
  | ads t ad => rfl
  | data content => simp [hu] at hf

theorem fits_of_readsExactly (hf : f.contentInline = false) {bytes : UInt64}
    (hb : bytes.toNat < 2 ^ 63) (h : ReadsExactly f bytes) :
    rest f bytes.toNat = 0 ∨
      (f.pos.toNat + bytes.toNat < 2 ^ 64 ∧ ReadFits f (rest f bytes.toNat)) := by
  refine or_iff_not_imp_left.mpr fun hz => ?_
  have hne : f.pos.toNat < f.fe.length.toNat ∧ 0 < bytes.toNat := by
    unfold rest at hz
    omega
  have hpos : f.pos < f.fe.length := UInt64.lt_iff_toNat_lt.mpr hne.1
  obtain ⟨⟨fuel, r, f', mem', s', hrun, hr, -⟩, hprog⟩ := h Unit (fun _ _ => 0)
    (BlockInput.single (fun _ _ => 0) 0) (BlockInput.single_serves _ _)
    (BlockInput.single_neverFails _ _) () (fun _ => 0) 0
  rw [udfreadFileRead_eq_chunks hf hb hpos] at hrun
  obtain ⟨hrc, hfit⟩ := readChunks_needs fuel (chunkStart f (fun _ => 0) bytes ()) hf hrun
    (hprog hpos)
  have hlim : (limitBytes f bytes).toNat = rest f bytes.toNat := by
    have : r = ((0 + (limitBytes f bytes).toNat : Nat) : Int) := hrc
    omega
  refine ⟨(limitBytes_rest hne.1 hne.2).mp hlim, (readFits_start _).mp ?_⟩
  rw [← hlim]
  exact hfit (by show 0 < (limitBytes f bytes).toNat; omega)

theorem readsExactly_of_fits (hf : f.contentInline = false) {bytes : UInt64}
    (hb : bytes.toNat < 2 ^ 63) (h : rest f bytes.toNat = 0 ∨
      (f.pos.toNat + bytes.toNat < 2 ^ 64 ∧ ReadFits f (rest f bytes.toNat))) :
    ReadsExactly f bytes := by
  intro σ media I hI hn s mem buf
  by_cases hpos : f.pos < f.fe.length
  · have hpos' := UInt64.lt_iff_toNat_lt.mp hpos
    have hlim : (limitBytes f bytes).toNat = rest f bytes.toNat := by
      by_cases hb0 : 0 < bytes.toNat
      · refine (limitBytes_rest hpos' hb0).mpr (h.resolve_left ?_).1
        unfold rest
        omega
      · obtain rfl : bytes = 0 := UInt64.toNat_inj.mp (by simp; omega)
        have hlt : ¬ f.pos + 0 > f.fe.length := by
          rw [UInt64.add_zero]
          exact UInt64.not_lt.mpr (UInt64.le_of_lt hpos)
        rw [limitBytes, if_neg hlt, rest]
        simp
    have hrest : rest f bytes.toNat ≤ f.fe.length.toNat - f.pos.toNat := Nat.min_le_right _ _
    have hlt := f.fe.length.toNat_lt
    have hstart : FitState (chunkStart f mem bytes s) := by
      refine ⟨hf, fun hb0 => ?_, ?_⟩
      · have hb0' : 0 < (limitBytes f bytes).toNat := hb0
        have hfit := (h.resolve_left (by omega)).2
        rw [← hlim] at hfit
        exact (readFits_start _).mpr hfit
      · show f.pos.toNat + (limitBytes f bytes).toNat < _
        omega
    refine ⟨?_, fun _ => progress_of_fits hI hn hstart⟩
    obtain ⟨f', mem', s', hrun, hp⟩ := readChunks_fits hI hn buf _ _ hstart (le_refl _)
    refine ⟨_, _, f', mem', s', by rw [udfreadFileRead_eq_chunks hf hb hpos]; exact hrun, ?_, ?_⟩
    · show ((0 + (limitBytes f bytes).toNat : Nat) : Int) = _
      omega
    · rw [hp, ← hlim]
      rfl
  · have hz : rest f bytes.toNat = 0 := by
      have : ¬ f.pos.toNat < f.fe.length.toNat := fun h => hpos (UInt64.lt_iff_toNat_lt.mpr h)
      unfold rest
      omega
    refine ⟨⟨0, 0, f, mem, s, ?_, by omega, by omega⟩, fun h => absurd h hpos⟩
    unfold udfreadFileRead
    rw [if_neg (by omega), if_pos (show f.pos ≥ f.fe.length from UInt64.not_lt.mp hpos)]
    rfl

/-- `udfread_file_read` reads a request to the last byte, over every input that never fails, exactly
if nothing is requested, or the request fits. -/
theorem readsExactly_iff (hf : f.contentInline = false) {bytes : UInt64} (hb : bytes.toNat < 2 ^ 63) :
    ReadsExactly f bytes ↔ rest f bytes.toNat = 0 ∨
      (f.pos.toNat + bytes.toNat < 2 ^ 64 ∧ ReadFits f (rest f bytes.toNat)) :=
  ⟨fits_of_readsExactly hf hb, readsExactly_of_fits hf hb⟩

end

/-- A request for more than the three blocks of a file behind two descriptors. -/
theorem readsExactly_iff_recorded :
    twoDescriptors.contentInline = false ∧ (6000 : UInt64).toNat < 2 ^ 63 ∧
      ReadsExactly twoDescriptors 6000 := by
  have hrest : rest twoDescriptors (6000 : UInt64).toNat = 5000 := by decide
  have hfits : ReadFits twoDescriptors 5000 := by
    refine ⟨fun h => absurd rfl h, by decide, fun b _ hb => .inl ?_⟩
    have hb' : b < 3 := by
      have : 2048 * b < 0 + 5000 := hb
      omega
    interval_cases b <;> decide
  refine ⟨rfl, by decide, (readsExactly_iff rfl (by decide)).mpr (.inr ⟨by decide, ?_⟩)⟩
  rw [hrest]
  exact hfits

/-! ## 2^32 bytes of zeros -/

/-- A turn of the chunk loop on 2^32 bytes counts no byte and leaves the handle as it was. -/
theorem readChunk_sparse (b : Option Mem) (mem : Mem) :
    ∃ mem', readChunk (BlockInput.full fun _ _ => 0) { UdfFile.sparse 4294967296 with block := b }
      mem 0 4294967296 () = .ok ((0, { UdfFile.sparse 4294967296 with block := b }, mem'), ()) := by
  obtain ⟨mem', s', hrun⟩ : ∃ mem' s', udfreadReadBlocks (BlockInput.full fun _ _ => 0)
      { UdfFile.sparse 4294967296 with block := b } mem 0 0 2097152 0 () =
        .ok ((2097152, mem'), s') := by
    have hb : fileBlocks { UdfFile.sparse 4294967296 with block := b } = .ok 2097152 := by
      show fileBlocks (.sparse 4294967296) = _
      decide
    refine udfreadReadBlocks_all (BlockInput.full_serves _) (BlockInput.full_neverFails _) rfl
      (fun k hk => readable_iff.mpr (.inr ⟨_, hb, ?_⟩)) mem 0 0 ()
    have hk' : k < 2097152 := hk
    rw [UInt32.zero_add, UInt32.lt_iff_toNat_lt, UInt32.toNat_ofNat', Nat.mod_eq_of_lt (by omega)]
    exact hk
  refine ⟨mem', ?_⟩
  have hfb : ((UdfFile.sparse 4294967296).pos / 2048).toUInt32 = 0 := by decide
  have hnum : ((4294967296 : UInt64) / 2048).toUInt32 = 2097152 := by decide
  rw [readChunk, if_neg (show ¬ (UdfFile.sparse 4294967296).pos % 2048 ≠ 0 by decide),
    if_pos (by decide), hnum, hfb, Proc.bind_of_ok hrun]
  have hsize : (2097152 : UInt32) * 2048 = 0 := by decide
  simp only [hsize, show ¬ (2097152 : UInt32) < 1 by decide, if_false]
  rfl

/-- A read of 2^32 bytes from the start of a file of that size does not end. -/
theorem udfreadFileRead_diverges :
    (BlockInput.full fun _ _ => 0).Serves (fun _ _ => 0) ∧
      (BlockInput.full fun _ _ => 0).NeverFails ∧
      ∀ (fuel : Nat), udfreadFileRead (BlockInput.full fun _ _ => 0) fuel (.sparse 4294967296)
        (fun _ => 1) 0 4294967296 () = .error .outOfFuel := by
  refine ⟨BlockInput.full_serves _, BlockInput.full_neverFails _, fun fuel => ?_⟩
  have hloop : ∀ (fuel : Nat) (b : Option Mem) (mem : Mem),
      readChunks (BlockInput.full fun _ _ => 0) 0 fuel { UdfFile.sparse 4294967296 with block := b }
        mem 0 4294967296 () = .error .outOfFuel := by
    intro fuel b
    induction fuel with
    | zero => exact fun mem => rfl
    | succ fuel ih =>
      intro mem
      obtain ⟨mem', hchunk⟩ := readChunk_sparse b mem
      rw [readChunks, if_neg (by decide), Proc.bind_of_ok hchunk]
      exact ih mem'
  rw [udfreadFileRead_eq_chunks rfl (by decide) (by decide)]
  exact hloop fuel _ _

end UdfRead
