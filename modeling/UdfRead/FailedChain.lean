import UdfRead.Image
import UdfRead.LargeReads
import UdfRead.Metadata
import UdfRead.StreamRefinement

/-!
# UdfRead.FailedChain

A file entry whose chain of allocation extents breaks off. The loop of `udf_read_file_entry` drops
the continuation descriptor before it reads the extent, so the list that is left looks like that of
a file with unallocated blocks at its end. A block behind the list is never counted as read exactly
if it is not readable (`failedChain_iff`), and up to 2^32 - 1 blocks every such block is readable:
it reads as zeros.
-/

namespace UdfRead

open CModel

/-- Through no handle of the file, wherever it was moved to and whatever was called on it, is block
`b` counted as read: by a block read that starts at or before it, by a byte read at a position
inside of it, or (for block numbers of 32 bits) by a byte read from an earlier position. -/
def NeverCounted (part : UdfPartitions) (fe : FileEntry) (b : Nat) : Prop :=
  ∀ (σ : Type) (media : Media) (I : BlockInput σ), I.Serves media →
    ∀ (pos : UInt64) (s : σ) (es : List StreamEvent) (f : UdfFile) (s' : σ),
      Run (FileStep I (2 ^ 64)) ({ UdfFile.fresh part fe with pos }, s) es (f, s') →
      (∀ mem buf (fileBlock numBlocks : UInt32) flags r mem' s'', fileBlock.toNat ≤ b →
        udfreadReadBlocks I f mem buf fileBlock numBlocks flags s' = .ok ((r, mem'), s'') →
        fileBlock.toNat + r.toNat ≤ b) ∧
      (∀ fuel mem buf (bytes : UInt64) r f' mem' s'',
        f.pos.toNat / 2048 = b ∨ (f.pos.toNat / 2048 ≤ b ∧ b < 2 ^ 32) →
        udfreadFileRead I fuel f mem buf bytes s' = .ok ((r, f', mem'), s'') →
        r ≤ 0 ∨ f.pos.toNat + r ≤ 2048 * b)

/-- A valid temporary block for a position inside of it is one that could be read. -/
def CacheReadable (f : UdfFile) : Prop :=
  f.contentInline = false → f.blockValid = true → f.pos.toNat % 2048 ≠ 0 →
    Readable f (UInt32.ofNat (f.pos.toNat / 2048))

section

variable {σ : Type} {I : BlockInput σ} {media : Media} {f f' : UdfFile} {b : Nat}

/-! ## Blocks -/

/-- The loop ends at a block that is not readable and lies behind all descriptors. `B` is the block
number of the first block, without wrap-around. -/
theorem readBlocksLoop_stops (hI : I.Serves media) (hcov : Extents.total adSlots f.ads ≤ b)
    (hR : ¬ Readable f (UInt32.ofNat b)) {B : Nat} {fileBlock numBlocks : UInt32}
    (hB : fileBlock = UInt32.ofNat B) (hle : B ≤ b) (hb : b = B ∨ b < 2 ^ 33) {buf fuel : Nat}
    {flags : Int} {r : UInt32} {mem mem' : Mem} {s s' : σ}
    (hrun : readBlocksLoop I f buf fileBlock numBlocks flags fuel 0 mem s = .ok ((r, mem'), s')) :
    B + r.toNat ≤ b := by
  have hnum := numBlocks.toNat_lt
  have hblock : ∀ i : UInt32, fileBlock + i = UInt32.ofNat (B + i.toNat) := by
    intro i
    rw [hB, UInt32.ofNat_add, UInt32.ofNat_toNat]
  have hne : ∀ i : UInt32, Readable f (fileBlock + i) → B + i.toNat ≠ b := by
    intro i hi hc
    rw [hblock, hc] at hi
    exact hR hi
  have h := readBlocksLoop_ind (P := fun i _ r _ => B + i.toNat ≤ b → B + r.toNat ≤ b)
    hI ?_ ?_ ?_ ?_ ?_ fuel 0 mem s r mem' s' (by simp) hrun
  · exact h (by simpa using hle)
  · exact fun mem h => h
  · exact fun i mem n hi hl hb hlt h => h
  · intro i mem r mem' n hi hl hbn hlt ih hib
    have hin := UInt32.lt_iff_toNat_lt.mp hi
    have := hne i (readable_iff.mpr (.inr ⟨n, hbn, hlt⟩))
    rw [UInt32.toNat_add] at ih
    simp at ih
    exact ih (by omega)
  · exact fun i mem run data hi hl hn hrun h => h
  · intro i mem run got data s r mem' hi hl hrun hg hgr hc hd ih hib
    have hin := UInt32.lt_iff_toNat_lt.mp hi
    have hnb := hne i (.inl hl)
    rw [UInt32.toNat_add, Nat.mod_eq_of_lt (by omega)] at ih
    refine ih ?_
    by_contra hpass
    -- the run would pass over block `b`, at distance `d`
    obtain ⟨d, hd'⟩ : ∃ d, b = B + i.toNat + d := ⟨b - (B + i.toNat), by omega⟩
    have hcovered := fileLba_covered hl
    have hwrap : (fileBlock + i).toNat = (B + i.toNat) % 2 ^ 32 := by
      rw [hblock, UInt32.toNat_ofNat']
    have hbi := fileBlock.toNat_lt
    have hmapped := (run_readable hl (d := d) (by omega) (hd d (by omega)).1 (by omega)).2
    refine hR (.inl ?_)
    rwa [hblock, ← UInt32.ofNat_add, ← hd'] at hmapped

/-! ## Chunks -/

/-- What a chunk does, as far as the blocks are concerned: it fails and leaves the position, or it
moves the position inside of a block that can be read, or over whole blocks. -/
inductive Chunk (I : BlockInput σ) (f : UdfFile) (bytes : UInt64) (r : Int) (f' : UdfFile) :
    Prop where
  | fail : r = -1 → f'.pos = f.pos → (f.pos.toNat % 2048 = 0 ∨ f'.blockValid = false) →
      Chunk I f bytes r f'
  | inside {n : Nat} : r = n → n ≤ bytes.toNat → f.pos.toNat % 2048 + n ≤ 2048 →
      (f.blockValid = true ∧ f.pos.toNat % 2048 ≠ 0 ∨
        Readable f (UInt32.ofNat (f.pos.toNat / 2048))) →
      f'.pos = f.pos + UInt64.ofNat n → Chunk I f bytes r f'
  | blocks {g : UInt32} {mem mem' : Mem} {buf : Nat} {s s' : σ} : f.pos.toNat % 2048 = 0 →
      readBlocksLoop I f buf (UInt32.ofNat (f.pos.toNat / 2048)) (bytes / 2048).toUInt32 0
        (bytes / 2048).toUInt32.toNat 0 mem s = .ok ((g, mem'), s') →
      r = (g * 2048).toNat → f'.pos = f.pos + (g * 2048).toUInt64 → Chunk I f bytes r f'

theorem readChunk_chunk (hI : I.Serves media) (hf : f.contentInline = false) {bytes : UInt64}
    {mem mem' : Mem} {buf : Nat} {s s' : σ} {r : Int}
    (hrun : readChunk I f mem buf bytes s = .ok ((r, f', mem'), s')) :
    f'.Same f ∧ Chunk I f bytes r f' := by
  obtain ⟨hsame, ⟨hr, hpos, hv⟩ | ⟨hoff, -, g, mem₁, hread, hr, hpos⟩ | ⟨n, hn, hr, hpos, -, hR⟩⟩ :=
    readChunk_cases hI hf hrun
  · exact ⟨hsame, .fail hr hpos hv⟩
  · exact ⟨hsame, .blocks hoff hread hr hpos⟩
  · exact ⟨hsame, .inside hr (by omega) (by omega) hR hpos⟩

theorem uint64_add_ofNat (pos : UInt64) (n : Nat) :
    (pos + UInt64.ofNat n).toNat = (pos.toNat + n) % 2 ^ 64 := by
  rw [UInt64.toNat_add, UInt64.toNat_ofNat']
  omega

/-- `_read` keeps the temporary block a readable one. -/
theorem readChunk_cache (hI : I.Serves media) (hf : f.contentInline = false) (hc : CacheReadable f)
    {bytes : UInt64} {mem mem' : Mem} {buf : Nat} {s s' : σ} {r : Int}
    (hrun : readChunk I f mem buf bytes s = .ok ((r, f', mem'), s')) :
    f'.Same f ∧ CacheReadable f' := by
  have hlt := f.pos.toNat_lt
  obtain ⟨hsame, hchunk⟩ := readChunk_chunk hI hf hrun
  refine ⟨hsame, fun _ hv hoff => (readable_same hsame _).mpr ?_⟩
  cases hchunk with
  | fail hr hpos hcase =>
    rw [hpos] at hoff ⊢
    rcases hcase with h | h
    · exact absurd h hoff
    · rw [h] at hv
      cases hv
  | inside hr hn hle hR hpos =>
    rename_i n
    rw [hpos, uint64_add_ofNat] at hoff ⊢
    have hsameblock : (f.pos.toNat + n) % 2 ^ 64 / 2048 = f.pos.toNat / 2048 := by omega
    rw [hsameblock]
    rcases hR with ⟨hv', hoff'⟩ | hR
    · exact hc hf hv' hoff'
    · exact hR
  | blocks halign hread hr hpos =>
    rename_i g _ _ _ _ _
    have hsz : (g * 2048).toNat = g.toNat * 2048 % 2 ^ 32 := UInt32.toNat_mul _ _
    rw [hpos, UInt64.toNat_add, UInt32.toNat_toUInt64] at hoff
    omega

/-- `_read` does not go past a block that is not readable and lies behind all descriptors. -/
theorem readChunk_stops (hI : I.Serves media) (hf : f.contentInline = false) (hc : CacheReadable f)
    (hcov : Extents.total adSlots f.ads ≤ b) (hR : ¬ Readable f (UInt32.ofNat b))
    (hb : f.pos.toNat / 2048 = b ∨ (f.pos.toNat / 2048 ≤ b ∧ b < 2 ^ 32)) (hb' : 2048 * b < 2 ^ 64)
    {bytes : UInt64} {mem mem' : Mem} {buf : Nat} {s s' : σ} {r : Int}
    (hrun : readChunk I f mem buf bytes s = .ok ((r, f', mem'), s')) :
    r = -1 ∨ 0 ≤ r ∧ f.pos.toNat + r ≤ 2048 * b ∧ (f'.pos.toNat : Int) = f.pos.toNat + r := by
  have hlt := f.pos.toNat_lt
  obtain ⟨-, hchunk⟩ := readChunk_chunk hI hf hrun
  cases hchunk with
  | fail hr hpos hcase => exact .inl hr
  | inside hr hn hle hcase hpos =>
    rename_i n
    have hne : f.pos.toNat / 2048 ≠ b := by
      intro h
      rcases hcase with ⟨hv, hoff⟩ | h'
      · exact hR (h ▸ hc hf hv hoff)
      · exact hR (h ▸ h')
    rw [hpos, uint64_add_ofNat]
    omega
  | blocks halign hread hr hpos =>
    rename_i g _ _ _ _ _
    have hstop := readBlocksLoop_stops hI hcov hR rfl (by omega) (by omega) hread
    have hsz : (g * 2048).toNat = g.toNat * 2048 % 2 ^ 32 := UInt32.toNat_mul _ _
    rw [hpos, UInt64.toNat_add, UInt32.toNat_toUInt64]
    omega

/-! ## Calls -/

theorem readChunks_cache (hI : I.Serves media) {buf : Nat} :
    ∀ (fuel : Nat) (f : UdfFile) (mem : Mem) (off : Nat) (bytes : UInt64) (s : σ) {R : Int}
      {f' : UdfFile} {mem' : Mem} {s' : σ}, f.contentInline = false → CacheReadable f →
      readChunks I buf fuel f mem off bytes s = .ok ((R, f', mem'), s') →
      f'.Same f ∧ CacheReadable f' := by
  intro fuel
  induction fuel with
  | zero =>
    intro f mem off bytes s R f' mem' s' hf hc hrun
    rw [readChunks] at hrun
    split at hrun
    · cases hrun
    · cases hrun
      exact ⟨.refl f, hc⟩
  | succ fuel ih =>
    intro f mem off bytes s R f' mem' s' hf hc hrun
    rw [readChunks] at hrun
    by_cases hb : bytes > 0
    · rw [if_neg (not_not_intro hb)] at hrun
      obtain ⟨⟨r, f₁, mem₁⟩, s₁, hchunk, hrun⟩ := Proc.bind_eq_ok.mp hrun
      obtain ⟨hsame, hc₁⟩ := readChunk_cache hI hf hc hchunk
      by_cases hr : r < 0
      · simp only [hr, if_true] at hrun
        split at hrun
        · cases hrun
          exact ⟨hsame, hc₁⟩
        · cases hrun
          exact ⟨hsame, hc₁⟩
      · simp only [hr, if_false] at hrun
        obtain ⟨hsame', hc'⟩ := ih f₁ mem₁ _ _ s₁ ((contentInline_same hsame).trans hf) hc₁ hrun
        exact ⟨hsame'.trans hsame, hc'⟩
    · rw [if_pos hb] at hrun
      cases hrun
      exact ⟨.refl f, hc⟩

/-- The chunk loop does not go past such a block either. -/
theorem readChunks_stops (hI : I.Serves media) {buf : Nat} (hb' : 2048 * b < 2 ^ 64) :
    ∀ (fuel : Nat) (f : UdfFile) (mem : Mem) (off : Nat) (bytes : UInt64) (s : σ) {R : Int}
      {f' : UdfFile} {mem' : Mem} {s' : σ}, f.contentInline = false → CacheReadable f →
      Extents.total adSlots f.ads ≤ b → ¬ Readable f (UInt32.ofNat b) →
      (f.pos.toNat / 2048 = b ∨ (f.pos.toNat / 2048 ≤ b ∧ b < 2 ^ 32)) →
      readChunks I buf fuel f mem off bytes s = .ok ((R, f', mem'), s') →
      R ≤ off ∨ f.pos.toNat + (R - off) ≤ 2048 * b := by
  intro fuel
  induction fuel with
  | zero =>
    intro f mem off bytes s R f' mem' s' hf hc hcov hR hb hrun
    rw [readChunks] at hrun
    split at hrun
    · cases hrun
    · cases hrun
      exact .inl (le_refl _)
  | succ fuel ih =>
    intro f mem off bytes s R f' mem' s' hf hc hcov hR hb hrun
    rw [readChunks] at hrun
    by_cases hz : bytes > 0
    · rw [if_neg (not_not_intro hz)] at hrun
      obtain ⟨⟨r, f₁, mem₁⟩, s₁, hchunk, hrun⟩ := Proc.bind_eq_ok.mp hrun
      obtain ⟨hsame, hc₁⟩ := readChunk_cache hI hf hc hchunk
      rcases readChunk_stops hI hf hc hcov hR hb hb' hchunk with hneg | ⟨hr, hle, hpos⟩
      · simp only [show r < 0 by omega, if_true] at hrun
        split at hrun
        · cases hrun
          exact .inl (le_refl _)
        · cases hrun
          exact .inl (by omega)
      · simp only [not_lt.mpr hr, if_false] at hrun
        have hads : f₁.ads = f.ads := by
          unfold UdfFile.ads
          rw [hsame.2]
        have hnext := ih f₁ mem₁ _ _ s₁ ((contentInline_same hsame).trans hf) hc₁ (by rwa [hads])
          (by rwa [readable_same hsame]) (by omega) hrun
        omega
    · rw [if_pos hz] at hrun
      cases hrun
      exact .inl (le_refl _)

theorem readInline_same {content : Bytes} {bytes : UInt64} {mem mem' : Mem} {buf : Nat} {r : Int}
    (h : readInline f content mem buf bytes = .ok (r, f', mem')) : f'.Same f := by
  obtain ⟨pad, hpad⟩ : ∃ pad : UInt64, (if f.pos + bytes > UInt64.ofNat content.length then
      if f.pos > UInt64.ofNat content.length then bytes
      else f.pos + bytes - UInt64.ofNat content.length
    else 0) = pad := ⟨_, rfl⟩
  simp only [readInline, hpad] at h
  by_cases hlt : pad < bytes
  · rw [if_pos hlt] at h
    obtain ⟨data, -, h⟩ := Res.bind_eq_ok.mp h
    cases h
    exact ⟨rfl, rfl⟩
  · rw [if_neg hlt] at h
    cases h
    exact ⟨rfl, rfl⟩

theorem cacheReadable_start (hc : CacheReadable f) :
    CacheReadable { f with block := some f.tmp } := by
  have hsame : ({ f with block := some f.tmp } : UdfFile).Same f := ⟨rfl, rfl⟩
  exact fun hf hv hoff => (readable_same hsame _).mpr (hc hf hv hoff)

theorem udfreadFileRead_cache (hI : I.Serves media) (hc : CacheReadable f) {fuel : Nat}
    {bytes : UInt64} {mem mem' : Mem} {buf : Nat} {s s' : σ} {r : Int}
    (hrun : udfreadFileRead I fuel f mem buf bytes s = .ok ((r, f', mem'), s')) :
    f'.Same f ∧ CacheReadable f' := by
  unfold udfreadFileRead at hrun
  split at hrun
  · cases hrun
    exact ⟨.refl f, hc⟩
  · split at hrun
    · cases hrun
      exact ⟨.refl f, hc⟩
    · cases hu : f.fe.u with
      | ads t ad =>
        rw [hu] at hrun
        have hf : f.contentInline = false := by
          unfold UdfFile.contentInline
          rw [hu]
        exact readChunks_cache hI fuel { f with block := some f.tmp } mem 0 _ s hf
          (cacheReadable_start hc) hrun
      | data content =>
        rw [hu] at hrun
        have hsame : f'.Same f := by
          simp only at hrun
          cases hin : readInline f content mem buf (limitBytes f bytes) with
          | error t =>
            rw [hin] at hrun
            cases hrun
          | ok p =>
            rw [hin] at hrun
            cases hrun
            exact readInline_same hin
        refine ⟨hsame, fun hf => ?_⟩
        rw [contentInline_same hsame, UdfFile.contentInline, hu] at hf
        cases hf

/-- Every call keeps the file, and the temporary block a readable one. -/
theorem fileStep_cache (hI : I.Serves media) {limit : Nat} {st st' : UdfFile × σ} {e : StreamEvent}
    {f₀ : UdfFile} (h : st.1.Same f₀ ∧ CacheReadable st.1) (hstep : FileStep I limit st e st') :
    st'.1.Same f₀ ∧ CacheReadable st'.1 := by
  have hseek : ∀ {f f' : UdfFile} {r : Int}, f.Same f₀ ∧ CacheReadable f →
      (r = -1 ∧ f' = f) ∨ (r = f'.pos.toNat ∧ f'.Same f ∧ f'.blockValid = false) →
      f'.Same f₀ ∧ CacheReadable f' := by
    rintro f f' r h (⟨-, rfl⟩ | ⟨-, hsame, hv⟩)
    · exact h
    · refine ⟨hsame.trans h.1, fun _ hv' => ?_⟩
      rw [hv] at hv'
      cases hv'
  cases hstep with
  | seek pos whence hlo hhi hs => exact hseek h (udfreadFileSeek_cases hhi hs)
  | seekOverflow ht hhi hs => exact hseek h (seekTo_cases hhi hs)
  | read hb hs =>
    obtain ⟨hsame, hc⟩ := udfreadFileRead_cache hI h.2 hs
    exact ⟨hsame.trans h.1, hc⟩
  | readBlocks hs => exact h

/-! ## Uncovered blocks -/

variable {part : UdfPartitions} {fe : FileEntry} {t : AdType} {ad : List LongAd}

theorem neverCounted_of_unreadable (hu : fe.u = .ads t ad) (hcov : Extents.total adSlots ad ≤ b)
    (hb : 2048 * b < fe.length.toNat)
    (hR : ¬ Readable (UdfFile.fresh part fe) (UInt32.ofNat b)) : NeverCounted part fe b := by
  intro σ media I hI pos s es f s' hrun
  have hlen := fe.length.toNat_lt
  have hstart : ({ UdfFile.fresh part fe with pos } : UdfFile).Same (UdfFile.fresh part fe) ∧
      CacheReadable { UdfFile.fresh part fe with pos } :=
    ⟨⟨rfl, rfl⟩, fun _ hv => by cases hv⟩
  obtain ⟨hsame, hc⟩ := hrun.invariant (P := fun st => st.1.Same (UdfFile.fresh part fe) ∧
    CacheReadable st.1) (fun _ _ _ => fileStep_cache hI) hstart
  have hfu : f.fe.u = .ads t ad := by rw [hsame.2]; exact hu
  have hf : f.contentInline = false := by
    unfold UdfFile.contentInline
    rw [hfu]
  have hads : f.ads = ad := by
    unfold UdfFile.ads
    rw [hfu]
  have hR' : ¬ Readable f (UInt32.ofNat b) := by rwa [readable_same hsame]
  have hcov' : Extents.total adSlots f.ads ≤ b := by rwa [hads]
  constructor
  · intro mem buf fileBlock numBlocks flags r mem' s'' hle hread
    rw [udfreadReadBlocks_eq_loop hf] at hread
    have hfb := fileBlock.toNat_lt
    have hr := r.toNat_lt
    rcases Nat.lt_or_ge b (2 ^ 33) with h33 | h33
    · exact readBlocksLoop_stops hI hcov' hR' UInt32.ofNat_toNat.symm hle (.inr h33) hread
    · omega
  · intro fuel mem buf bytes r f' mem' s'' hpos hread
    unfold udfreadFileRead at hread
    split at hread
    · cases hread
      exact .inl (by omega)
    · split at hread
      · cases hread
        exact .inl (le_refl _)
      · rw [hfu] at hread
        have hstop := readChunks_stops hI (by omega) fuel { f with block := some f.tmp } mem 0 _ s' hf
          (cacheReadable_start hc) hcov' hR' hpos hread
        simpa using hstop

/-- A block that is readable is counted by a read of its first byte. -/
theorem unreadable_of_neverCounted (hu : fe.u = .ads t ad) (hb : 2048 * b < fe.length.toNat)
    (h : NeverCounted part fe b) : ¬ Readable (UdfFile.fresh part fe) (UInt32.ofNat b) := by
  intro hR
  have hlen := fe.length.toNat_lt
  have hpos : (UInt64.ofNat (2048 * b)).toNat = 2048 * b := by
    rw [UInt64.toNat_ofNat', Nat.mod_eq_of_lt (by omega)]
  obtain ⟨f, hf⟩ : ∃ f, f = { UdfFile.fresh part fe with pos := UInt64.ofNat (2048 * b) } := ⟨_, rfl⟩
  have hfe : f.fe = fe := by rw [hf]; rfl
  have hfp : f.pos.toNat = 2048 * b := by rw [hf]; exact hpos
  have hin : f.contentInline = false := by
    rw [UdfFile.contentInline, hfe, hu]
  have hsame : f.Same (UdfFile.fresh part fe) := by rw [hf]; exact ⟨rfl, rfl⟩
  have hrest : rest f (1 : UInt64).toNat = 1 := by
    rw [rest, hfp, hfe]
    simp
    omega
  have hfits : ReadFits f 1 := by
    refine ⟨fun hoff => absurd hoff (by omega), by omega, fun b' hb1 hb2 => ?_⟩
    obtain rfl : b' = b := by omega
    exact (readable_same hsame _).mpr hR
  have hnowrap : f.pos.toNat + (1 : UInt64).toNat < 2 ^ 64 := by
    rw [hfp]
    simp
    omega
  have hexact : ReadsExactly f 1 :=
    readsExactly_of_fits hin (by decide) (.inr ⟨hnowrap, by rw [hrest]; exact hfits⟩)
  obtain ⟨⟨fuel, r, f', mem', s', hrun, hr, -⟩, -⟩ := hexact Unit (fun _ _ => 0) (.full fun _ _ => 0)
    (BlockInput.full_serves _) (BlockInput.full_neverFails _) () (fun _ => 0) 0
  have hnever := (h Unit (fun _ _ => 0) (.full fun _ _ => 0) (BlockInput.full_serves _)
    (UInt64.ofNat (2048 * b)) () [] f () (by rw [hf]; exact .nil _)).2 _ _ _ _ _ _ _ _
    (.inl (by omega)) hrun
  omega

/-- A chain that breaks off leaves a list of descriptors. -/
theorem readExtents_ads {fuel : Nat} {fe fe' : FileEntry} {e : ChainEnd} {s s' : σ}
    (h : readExtents I part fuel fe s = .ok ((fe', e), s')) (he : e ≠ .complete) :
    ∃ t ad, fe'.u = .ads t ad := by
  induction fuel generalizing fe s with
  | zero => cases h
  | succ fuel ih =>
    rw [readExtents] at h
    cases hd : fe.dropContinuation with
    | none =>
      rw [hd] at h
      cases h
      exact absurd rfl he
    | some r =>
      obtain ⟨icb, fe₁⟩ := r
      have hads : ∃ t ad, fe₁.u = .ads t ad := by
        unfold FileEntry.dropContinuation at hd
        split at hd
        · cases hd
        · split at hd
          · cases hd
          · split at hd
            · cases hd
              exact ⟨_, _, rfl⟩
            · cases hd
      rw [hd] at h
      obtain ⟨m, s₁, -, h⟩ := Proc.bind_eq_ok.mp h
      cases m with
      | none =>
        cases h
        exact hads
      | some b =>
        obtain ⟨tag, buf⟩ := b
        simp only at h
        split at h
        · cases h
          exact hads
        · obtain ⟨d, s₂, hdec, h⟩ := Proc.bind_eq_ok.mp h
          cases d with
          | none =>
            cases h
            exact hads
          | some fe₂ => exact ih h

theorem readFileEntryChain_ads {fuel : Nat} {icb : LongAd} {e : ChainEnd} {s s' : σ}
    (h : readFileEntryChain I fuel part icb s = .ok (some (fe, e), s')) (he : e ≠ .complete) :
    ∃ t ad, fe.u = .ads t ad := by
  unfold readFileEntryChain at h
  obtain ⟨m, s₁, -, h⟩ := Proc.bind_eq_ok.mp h
  cases m with
  | none => cases h
  | some fe₁ =>
    obtain ⟨r, s₂, hext, h⟩ := Proc.bind_eq_ok.mp h
    cases h
    exact readExtents_ads hext he

theorem fileBlocks_eq (hlen : f.InRange) :
    fileBlocks f = .ok (UInt32.ofNat ((f.fe.length.toNat + 2047) / 2048)) := by
  unfold UdfFile.InRange at hlen
  have hs : udfreadFileSize f = f.fe.length.toNat := signed64_of_lt (by omega)
  rw [fileBlocks, hs, addSigned64, if_pos (by omega)]
  have hdiv : ((f.fe.length.toNat : Int) + 2048 - 1).tdiv 2048 % 2 ^ 32 =
      (((f.fe.length.toNat + 2047) / 2048 : Nat) : Int) := by
    rw [Int.tdiv_eq_ediv_of_nonneg (by omega)]
    omega
  rw [Res.ok_bind, hdiv]
  rfl

/-- Behind the descriptors, each block of a file of up to 2^32 - 1 blocks reads as zeros. -/
theorem readable_behind (hlen : f.InRange) (hb : 2048 * b < f.fe.length.toNat) :
    Readable f (UInt32.ofNat b) := by
  refine readable_iff.mpr (.inr ⟨_, fileBlocks_eq hlen, ?_⟩)
  unfold UdfFile.InRange at hlen
  rw [UInt32.lt_iff_toNat_lt, UInt32.toNat_ofNat', UInt32.toNat_ofNat', Nat.mod_eq_of_lt (by omega),
    Nat.mod_eq_of_lt (by omega)]
  omega

/-- The blocks behind the descriptors of a chain that broke off are never counted as read exactly if
none of them is readable; of a file of up to 2^32 - 1 blocks, exactly if there are none. -/
theorem failedChain_iff {fuel : Nat} {icb : LongAd} {e : ChainEnd} {s s' : σ}
    (h : readFileEntryChain I fuel part icb s = .ok (some (fe, e), s')) (he : e ≠ .complete) :
    ((∀ b, Extents.total adSlots (UdfFile.fresh part fe).ads ≤ b → 2048 * b < fe.length.toNat →
        NeverCounted part fe b) ↔
      ∀ b, Extents.total adSlots (UdfFile.fresh part fe).ads ≤ b → 2048 * b < fe.length.toNat →
        ¬ Readable (UdfFile.fresh part fe) (UInt32.ofNat b)) ∧
    ((UdfFile.fresh part fe).InRange →
      ((∀ b, Extents.total adSlots (UdfFile.fresh part fe).ads ≤ b → 2048 * b < fe.length.toNat →
          NeverCounted part fe b) ↔
        fe.length.toNat ≤ 2048 * Extents.total adSlots (UdfFile.fresh part fe).ads)) := by
  obtain ⟨t, ad, hu⟩ := readFileEntryChain_ads h he
  have hads : (UdfFile.fresh part fe).ads = ad := by
    show (UdfFile.fresh part fe).ads = ad
    unfold UdfFile.ads UdfFile.fresh
    rw [hu]
  rw [hads]
  constructor
  · constructor
    · intro hall b hcov hb
      exact unreadable_of_neverCounted hu hb (hall b hcov hb)
    · intro hall b hcov hb
      exact neverCounted_of_unreadable hu hcov hb (hall b hcov hb)
  · intro hin
    constructor
    · intro hall
      by_contra hlt
      have hb : 2048 * Extents.total adSlots ad < fe.length.toNat := by omega
      exact unreadable_of_neverCounted hu hb (hall _ (le_refl _) hb) (readable_behind hin hb)
    · intro hle b hcov hb
      omega

end

/-! ## A broken chain of a short file -/

/-- Only block 16 can be read. -/
def brokenChain : Image := fun lba => if lba = 16 then some twoBlockEntry else none

def brokenChainFile : FileEntry where
  length := 4096
  fileType := 5
  u := .ads .short [{ lba := 100, length := 2048, partition := 0, extentType := 0 }]

theorem brokenChain_read :
    readFileEntryChain (.ofImage brokenChain none) 2 onePartition twoBlockIcb () =
      .ok (some (brokenChainFile, .unreadable), ()) := by
  decide +kernel

theorem failedChain_iff_broken :
    ((∀ b, Extents.total adSlots (UdfFile.fresh onePartition brokenChainFile).ads ≤ b →
        2048 * b < brokenChainFile.length.toNat → NeverCounted onePartition brokenChainFile b) ↔
      ∀ b, Extents.total adSlots (UdfFile.fresh onePartition brokenChainFile).ads ≤ b →
        2048 * b < brokenChainFile.length.toNat →
        ¬ Readable (UdfFile.fresh onePartition brokenChainFile) (UInt32.ofNat b)) ∧
    ((∀ b, Extents.total adSlots (UdfFile.fresh onePartition brokenChainFile).ads ≤ b →
        2048 * b < brokenChainFile.length.toNat → NeverCounted onePartition brokenChainFile b) ↔
      brokenChainFile.length.toNat ≤
        2048 * Extents.total adSlots (UdfFile.fresh onePartition brokenChainFile).ads) :=
  have h := failedChain_iff brokenChain_read (by decide)
  ⟨h.1, h.2 (by unfold UdfFile.InRange; decide)⟩

/-- Block 1 is covered by no descriptor; it is counted as read, and zeros are stored. -/
theorem brokenChain_zeros :
    readFileEntryChain (.ofImage brokenChain none) 2 onePartition twoBlockIcb () =
      .ok (some (brokenChainFile, .unreadable), ()) ∧
    Extents.total adSlots (UdfFile.fresh onePartition brokenChainFile).ads ≤ 1 ∧
    2048 * 1 < brokenChainFile.length.toNat ∧
    (∃ mem, udfreadReadBlocks (.ofImage brokenChain none) (.fresh onePartition brokenChainFile)
      (fun _ => 170) 0 1 1 0 () = .ok ((1, mem), ()) ∧ mem = Mem.blit (fun _ => 170) 0 2048 fun _ => 0) ∧
    ¬ NeverCounted onePartition brokenChainFile 1 := by
  refine ⟨brokenChain_read, by decide, by decide, ⟨_, rfl, rfl⟩, fun h => ?_⟩
  have hin : (UdfFile.fresh onePartition brokenChainFile).InRange := by
    unfold UdfFile.InRange
    decide
  exact unreadable_of_neverCounted rfl (by decide) h (readable_behind hin (by decide))

end UdfRead
