import UdfRead.FailedChain
import UdfRead.Lib.Log

/-!
# UdfRead.FileAccess

What reading a file touches, whatever the block input answers and whatever the handle and the
request are. Memory is written inside of the caller's buffer only, also by a read that never ends
(`fileRead_inBuffer`), and each request to the input is for blocks of one recorded extent of the file
(`fileRun_inExtents`).
-/

namespace UdfRead

open CModel Extents

/-- A request for some blocks from a block on. -/
structure Request where
  lba : UInt32
  nblocks : UInt32

/-- The request is for consecutive blocks of one recorded extent of the file. -/
def Request.Inside (f : UdfFile) (q : Request) : Prop :=
  ∃ ad ∈ f.ads, ad.extentType = LongAd.extentNormal ∧ ad.lba ≠ 0 ∧
    ∃ k, k + q.nblocks.toNat ≤ adSlots ad ∧ q.lba = f.part.p0.lba + ad.lba + UInt32.ofNat k

section

variable {σ : Type}

/-- The input, with a log of what it is asked for. -/
def BlockInput.requests (I : BlockInput σ) : BlockInput (σ × List Request) where
  read lba nblocks flags s :=
    let (t, s') := I.read lba nblocks flags s.1
    (t, (s', s.2 ++ [⟨lba, nblocks⟩]))
  size := I.size.map fun size s =>
    let (n, s') := size s.1
    (n, (s', s.2))
  count_le lba nblocks flags s := I.count_le lba nblocks flags s.1

/-- The two memories differ between `a` and `a + n` at most. -/
def SameOutside (a n : Nat) (mem mem' : Mem) : Prop :=
  ∀ x, x < a ∨ a + n ≤ x → mem' x = mem x

variable {I : BlockInput σ} {f f' : UdfFile} {mem mem' : Mem} {a n buf fuel : Nat} {bytes : UInt64}
  {s s' : σ} {r : Int}

theorem SameOutside.refl (a n : Nat) (mem : Mem) : SameOutside a n mem mem := fun _ _ => rfl

theorem SameOutside.trans {mem'' : Mem} (h : SameOutside a n mem mem')
    (h' : SameOutside a n mem' mem'') : SameOutside a n mem mem'' :=
  fun x hx => (h' x hx).trans (h x hx)

/-- Less is touched in a part of the buffer. -/
theorem SameOutside.mono {b m : Nat} (h : SameOutside b m mem mem') (ha : a ≤ b)
    (hb : b + m ≤ a + n) : SameOutside a n mem mem' :=
  fun x hx => h x (by omega)

theorem sameOutside_blit {b m : Nat} {data : Nat → UInt8} (ha : a ≤ b) (hb : b + m ≤ a + n) :
    SameOutside a n mem (mem.blit b m data) :=
  fun _ hx => Mem.blit_out (by omega)

/-! ## Blocks -/

theorem mul2048_le (i : UInt32) : (2048 * i).toNat ≤ 2048 * i.toNat := by
  rw [UInt32.toNat_mul]
  exact Nat.mod_le _ _

/-- The input reports no more blocks than it is asked for. -/
theorem readBlocks_le (lba nblocks : UInt32) (flags : Int) :
    Proc.Gives (I.readBlocks lba nblocks flags) fun x => x.1.toNat ≤ nblocks.toNat := by
  intro s x s' hrun
  have hle := I.count_le lba nblocks flags s
  unfold BlockInput.readBlocks at hrun
  split at hrun
  · cases hrun
    exact Nat.zero_le _
  · cases hread : I.read lba nblocks flags s with
    | mk t s₁ =>
      rw [hread] at hrun hle
      simp only at hrun hle
      cases hrun
      simp only
      split
      · exact Nat.zero_le _
      · rw [UInt32.toNat_ofNat']
        have hmod := Nat.mod_le t.count.toNat (2 ^ 32)
        omega

/-- The loop counts no more blocks than it is asked for, and stores them in their buffer. -/
theorem readBlocksLoop_inBuffer (f : UdfFile) (buf : Nat) (fileBlock numBlocks : UInt32)
    (flags : Int) (fuel : Nat) (i : UInt32) (mem : Mem) (hi : i.toNat ≤ numBlocks.toNat) :
    Proc.Gives (readBlocksLoop I f buf fileBlock numBlocks flags fuel i mem) fun x =>
      x.1.toNat ≤ numBlocks.toNat ∧ SameOutside buf (2048 * numBlocks.toNat) mem x.2 := by
  have hdone : i.toNat ≤ numBlocks.toNat ∧ SameOutside buf (2048 * numBlocks.toNat) mem mem :=
    ⟨hi, .refl _ _ _⟩
  induction fuel generalizing i mem with
  | zero =>
    rw [readBlocksLoop]
    split
    · exact Proc.gives_ofRes fun _ h => by cases h
    · exact Proc.gives_pure hdone
  | succ fuel ih =>
    rw [readBlocksLoop]
    by_cases hlt : i < numBlocks
    · have hin := UInt32.lt_iff_toNat_lt.mp hlt
      have hnum := numBlocks.toNat_lt
      have hblock := mul2048_le i
      have hlast : (numBlocks - i).toNat = numBlocks.toNat - i.toNat :=
        toNat_sub_of_le (le_of_lt hin)
      rw [if_neg (not_not_intro hlt)]
      simp only
      split
      · refine (Proc.gives_true _).bind fun blocks _ => ?_
        split
        · have hnext : (i + 1).toNat = i.toNat + 1 := by
            rw [UInt32.toNat_add]
            simp
            omega
          have hstored : SameOutside buf (2048 * numBlocks.toNat) mem
              (mem.blit (buf + (2048 * i).toNat) 2048 fun _ => 0) :=
            sameOutside_blit (by omega) (by omega)
          refine (ih (i + 1) _ (by omega) ⟨by omega, .refl _ _ _⟩).mono fun x hx => ?_
          exact ⟨hx.1, hstored.trans hx.2⟩
        · exact Proc.gives_pure hdone
      · have hext : (min (fileLba f (fileBlock + i)).2 (numBlocks - i)).toNat ≤
            numBlocks.toNat - i.toNat := by
          rw [UInt32.toNat_min]
          omega
        refine (readBlocks_le _ _ _).bind fun x hx => ?_
        obtain ⟨got, data⟩ := x
        simp only at hx ⊢
        have hstored : ∀ d, SameOutside buf (2048 * numBlocks.toNat) mem
            (mem.blit (buf + (2048 * i).toNat)
              (2048 * (min (fileLba f (fileBlock + i)).2 (numBlocks - i)).toNat) d) :=
          fun d => sameOutside_blit (by omega) (by omega)
        have hrest : ∀ mem', SameOutside buf (2048 * numBlocks.toNat) mem mem' →
            Proc.Gives (if got < 1 then pure (i, mem')
              else readBlocksLoop I f buf fileBlock numBlocks flags fuel (i + got) mem') fun x =>
              x.1.toNat ≤ numBlocks.toNat ∧ SameOutside buf (2048 * numBlocks.toNat) mem x.2 := by
          intro mem' hmem
          split
          · exact Proc.gives_pure ⟨hi, hmem⟩
          · have hnext : (i + got).toNat = i.toNat + got.toNat := by
              rw [UInt32.toNat_add]
              omega
            refine (ih (i + got) _ (by omega) ⟨by omega, .refl _ _ _⟩).mono fun x hx => ?_
            exact ⟨hx.1, hmem.trans hx.2⟩
        cases data with
        | none => exact hrest mem (.refl _ _ _)
        | some d => exact hrest _ (hstored d)
    · rw [if_pos hlt]
      exact Proc.gives_pure hdone

theorem udfreadReadBlocks_inBuffer (f : UdfFile) (mem : Mem) (buf : Nat)
    (fileBlock numBlocks : UInt32) (flags : Int) :
    Proc.Gives (udfreadReadBlocks I f mem buf fileBlock numBlocks flags) fun x =>
      x.1.toNat ≤ numBlocks.toNat ∧ SameOutside buf (2048 * numBlocks.toNat) mem x.2 := by
  have hnone : (0 : UInt32).toNat ≤ numBlocks.toNat ∧
      SameOutside buf (2048 * numBlocks.toNat) mem mem := ⟨Nat.zero_le _, .refl _ _ _⟩
  unfold udfreadReadBlocks
  split
  · exact Proc.gives_pure hnone
  · split
    · exact Proc.gives_pure hnone
    · exact readBlocksLoop_inBuffer f buf fileBlock numBlocks flags _ 0 mem (Nat.zero_le _)

/-! ## Bytes -/

/-- What a read of up to `n` bytes at `buf` leaves: a count of at most `n`, and all memory outside
of the buffer as it was. -/
structure InBuffer (buf n : Nat) (mem : Mem) (r : Int) (mem' : Mem) : Prop where
  low : -1 ≤ r
  high : r ≤ n
  outside : SameOutside buf n mem mem'

/-- Nothing has been stored. -/
theorem InBuffer.failed (buf n : Nat) (mem : Mem) : InBuffer buf n mem (-1) mem :=
  ⟨le_refl _, by omega, .refl _ _ _⟩

theorem readChunk_inBuffer (f : UdfFile) (mem : Mem) (buf : Nat) (bytes : UInt64) :
    Proc.Gives (readChunk I f mem buf bytes) fun x =>
      InBuffer buf bytes.toNat mem x.1 x.2.2 := by
  unfold readChunk
  simp only
  split
  · -- the middle of a block
    refine (Proc.gives_true _).bind fun x _ => ?_
    obtain ⟨ok, f₁⟩ := x
    simp only
    split
    · exact Proc.gives_pure (.failed _ _ _)
    · have hchunk := chunkSize_toNat f bytes
      have hstored : SameOutside buf bytes.toNat mem
          (mem.blit buf (min (2048 - f.pos % 2048) bytes).toNat fun k =>
            f₁.tmp ((f.pos % 2048).toNat + k)) :=
        sameOutside_blit (le_refl _) (by omega)
      refine Proc.gives_pure ⟨by omega, ?_, hstored⟩
      simp only
      omega
  · split
    · -- full blocks
      refine (udfreadReadBlocks_inBuffer f mem buf _ _ 0).bind fun x hx => ?_
      obtain ⟨numBlocks, mem₁⟩ := x
      obtain ⟨hnum, hmem⟩ := hx
      have hblocks := numBlocks_toNat bytes
      have hmod := Nat.mod_le (bytes.toNat / 2048) (2 ^ 32)
      have hout : SameOutside buf bytes.toNat mem mem₁ := hmem.mono (le_refl _) (by omega)
      simp only at hnum ⊢
      split
      · exact Proc.gives_pure ⟨le_refl _, by omega, hout⟩
      · have hsize : (numBlocks * 2048).toNat ≤ 2048 * numBlocks.toNat := by
          rw [UInt32.mul_comm]
          exact mul2048_le numBlocks
        refine Proc.gives_pure ⟨by omega, ?_, hout⟩
        simp only
        omega
    · -- the beginning of a block
      refine (Proc.gives_true _).bind fun x _ => ?_
      obtain ⟨ok, f₁⟩ := x
      simp only
      split
      · exact Proc.gives_pure (.failed _ _ _)
      · have hstored : SameOutside buf bytes.toNat mem (mem.blit buf bytes.toNat f₁.tmp) :=
          sameOutside_blit (le_refl _) (le_refl _)
        exact Proc.gives_pure ⟨by omega, le_refl _, hstored⟩

theorem bytes_left (hle : r ≤ bytes.toNat) :
    (bytes - UInt64.ofNat r.toNat).toNat = bytes.toNat - r.toNat := by
  have hlt := bytes.toNat_lt
  have hr : (UInt64.ofNat r.toNat).toNat = r.toNat := by
    rw [UInt64.toNat_ofNat', Nat.mod_eq_of_lt (by omega)]
  rw [UInt64.toNat_sub_of_le _ _ (UInt64.le_iff_toNat_le.mpr (by omega)), hr]

/-- The chunk loop, with `off` bytes of the buffer filled and `bytes` left. -/
theorem readChunks_inBuffer (fuel : Nat) (f : UdfFile) (mem : Mem) (off : Nat) (bytes : UInt64) :
    Proc.Gives (readChunks I buf fuel f mem off bytes) fun x =>
      InBuffer buf (off + bytes.toNat) mem x.1 x.2.2 := by
  have hdone : ∀ mem', SameOutside buf (off + bytes.toNat) mem mem' →
      InBuffer buf (off + bytes.toNat) mem off mem' := fun mem' h => ⟨by omega, by omega, h⟩
  induction fuel generalizing f mem off bytes with
  | zero =>
    rw [readChunks]
    split
    · exact Proc.gives_ofRes fun _ h => by cases h
    · exact Proc.gives_pure (hdone mem (.refl _ _ _))
  | succ fuel ih =>
    rw [readChunks]
    split
    · exact Proc.gives_pure (hdone mem (.refl _ _ _))
    · refine (readChunk_inBuffer f mem (buf + off) bytes).bind fun x hx => ?_
      obtain ⟨r, f₁, mem₁⟩ := x
      have hhigh := hx.high
      have hout : SameOutside buf (off + bytes.toNat) mem mem₁ :=
        hx.outside.mono (by omega) (by omega)
      simp only at hhigh ⊢
      split
      · split
        · exact Proc.gives_pure (hdone mem₁ hout)
        · exact Proc.gives_pure ⟨le_refl _, by omega, hout⟩
      · have hleft := bytes_left hhigh
        refine (ih f₁ mem₁ (off + r.toNat) (bytes - UInt64.ofNat r.toNat) fun mem' h =>
          ⟨by omega, by omega, h⟩).mono fun x hx => ?_
        exact ⟨hx.low, by have := hx.high; omega, hout.trans (hx.outside.mono (le_refl _) (by omega))⟩

theorem limitBytes_le (hpos : f.pos.toNat < f.fe.length.toNat) (bytes : UInt64) :
    (limitBytes f bytes).toNat ≤ bytes.toNat := by
  have hlt := bytes.toNat_lt
  have hlen := f.fe.length.toNat_lt
  unfold limitBytes
  split
  · rename_i hover
    have hsum := UInt64.lt_iff_toNat_lt.mp hover
    rw [UInt64.toNat_add] at hsum
    rw [UInt64.toNat_sub_of_le _ _ (UInt64.le_iff_toNat_le.mpr (le_of_lt hpos))]
    omega
  · exact le_refl _

/-- The padding of an inline read is a part of it. -/
theorem readInline_inBuffer {content : Bytes}
    (h : readInline f content mem buf bytes = .ok (r, f', mem')) :
    InBuffer buf bytes.toNat mem r mem' := by
  have hlt := bytes.toNat_lt
  have hpad : (if f.pos + bytes > UInt64.ofNat content.length then
      if f.pos > UInt64.ofNat content.length then bytes
      else f.pos + bytes - UInt64.ofNat content.length else 0).toNat ≤ bytes.toNat := by
    generalize UInt64.ofNat content.length = size
    split
    · split
      · exact le_refl _
      · rename_i hover hpos
        have hsum := UInt64.lt_iff_toNat_lt.mp hover
        have hle : f.pos.toNat ≤ size.toNat := by
          by_contra hc
          exact hpos (UInt64.lt_iff_toNat_lt.mpr (by omega))
        rw [UInt64.toNat_sub_of_le _ _ (UInt64.le_iff_toNat_le.mpr (le_of_lt hsum))]
        rw [UInt64.toNat_add] at hsum ⊢
        omega
    · exact Nat.zero_le _
  unfold readInline at h
  simp only at h
  generalize (if f.pos + bytes > UInt64.ofNat content.length then
    if f.pos > UInt64.ofNat content.length then bytes
    else f.pos + bytes - UInt64.ofNat content.length else 0) = pad at h hpad
  have hkept : (bytes - pad).toNat = bytes.toNat - pad.toNat :=
    UInt64.toNat_sub_of_le _ _ (UInt64.le_iff_toNat_le.mpr hpad)
  have hpadded : SameOutside buf bytes.toNat mem
      (mem.blit (buf + (bytes - pad).toNat) pad.toNat fun _ => 0) :=
    sameOutside_blit (by omega) (by omega)
  split at h
  · obtain ⟨data, -, h⟩ := Res.bind_eq_ok.mp h
    cases h
    exact ⟨by omega, le_refl _, hpadded.trans (sameOutside_blit (le_refl _) (by omega))⟩
  · cases h
    exact ⟨by omega, le_refl _, hpadded⟩

theorem udfreadFileRead_inBuffer (fuel : Nat) (f : UdfFile) (mem : Mem) (buf : Nat)
    (bytes : UInt64) :
    Proc.Gives (udfreadFileRead I fuel f mem buf bytes) fun x =>
      InBuffer buf bytes.toNat mem x.1 x.2.2 := by
  unfold udfreadFileRead
  split
  · exact Proc.gives_pure (.failed _ _ _)
  · split
    · exact Proc.gives_pure ⟨by omega, by omega, .refl _ _ _⟩
    · rename_i hpos
      have hlimit : (limitBytes f bytes).toNat ≤ bytes.toNat :=
        limitBytes_le (by
          by_contra hc
          exact hpos (UInt64.le_iff_toNat_le.mpr (by omega))) bytes
      have hwider : ∀ r mem', InBuffer buf (limitBytes f bytes).toNat mem r mem' →
          InBuffer buf bytes.toNat mem r mem' := fun r mem' h =>
        ⟨h.low, by have := h.high; omega, h.outside.mono (le_refl _) (by omega)⟩
      split
      · refine Proc.gives_ofRes fun x hx => hwider _ _ ?_
        exact readInline_inBuffer hx
      · refine (readChunks_inBuffer fuel _ mem 0 (limitBytes f bytes)).mono fun x hx => hwider _ _ ?_
        rwa [Nat.zero_add] at hx

/-- One iteration of the chunk loop stays in the buffer, and counts what it has consumed. -/
theorem chunkStep_inBuffer {st st' : ChunkState σ} (hstep : ChunkStep I buf st r st')
    (h : SameOutside buf n mem st.mem ∧ st.off + st.bytes.toNat ≤ n) :
    SameOutside buf n mem st'.mem ∧ st'.off + st'.bytes.toNat ≤ n := by
  cases hstep with
  | mk hmore hrun =>
    have hchunk := readChunk_inBuffer _ _ _ _ _ _ _ hrun
    have hhigh := hchunk.high
    have hleft := bytes_left hhigh
    simp only at hhigh hleft ⊢
    exact ⟨h.1.trans (hchunk.outside.mono (by omega) (by omega)), by omega⟩

/-- However a read goes, it writes to its buffer only: when it returns, and after each iteration of
its loop, whether that ends or not. -/
theorem fileRead_inBuffer (I : BlockInput σ) (f : UdfFile) (mem : Mem) (buf : Nat) (bytes : UInt64)
    (s : σ) :
    (∀ fuel r f' mem' s', udfreadFileRead I fuel f mem buf bytes s = .ok ((r, f', mem'), s') →
      InBuffer buf bytes.toNat mem r mem') ∧
    (f.pos < f.fe.length → ∀ rs st, Run (ChunkStep I buf) (chunkStart f mem bytes s) rs st →
      SameOutside buf bytes.toNat mem st.mem ∧ st.off + st.bytes.toNat ≤ bytes.toNat) ∧
    (∀ fileBlock numBlocks flags r mem' s',
      udfreadReadBlocks I f mem buf fileBlock numBlocks flags s = .ok ((r, mem'), s') →
      r.toNat ≤ numBlocks.toNat ∧ SameOutside buf (2048 * numBlocks.toNat) mem mem') := by
  refine ⟨fun fuel r f' mem' s' hrun => ?_, fun hpos rs st hrun => ?_,
    fun fileBlock numBlocks flags r mem' s' hrun => ?_⟩
  · exact udfreadFileRead_inBuffer fuel f mem buf bytes s _ s' hrun
  · have hlimit := limitBytes_le (UInt64.lt_iff_toNat_lt.mp hpos) bytes
    have hstart : SameOutside buf bytes.toNat mem (chunkStart f mem bytes s).mem ∧
        (chunkStart f mem bytes s).off + (chunkStart f mem bytes s).bytes.toNat ≤ bytes.toNat := by
      refine ⟨.refl _ _ _, ?_⟩
      show 0 + (limitBytes f bytes).toNat ≤ bytes.toNat
      omega
    exact hrun.invariant (P := fun st => SameOutside buf bytes.toNat mem st.mem ∧
      st.off + st.bytes.toNat ≤ bytes.toNat) (fun _ _ _ h hstep => chunkStep_inBuffer hstep h) hstart
  · exact udfreadReadBlocks_inBuffer f mem buf fileBlock numBlocks flags s _ s' hrun

/-! ## Requests -/

theorem inside_same {g : UdfFile} (h : f.Same g) (q : Request) : q.Inside f ↔ q.Inside g := by
  have hads : f.ads = g.ads := by
    unfold UdfFile.ads
    rw [h.2]
  unfold Request.Inside
  rw [hads, h.1]

/-- A run that a lookup reports lies in a recorded extent, and so does each part of it that starts
where it does. -/
theorem fileLba_inside {b n : UInt32} (h : (fileLba f b).1 ≠ 0)
    (hn : n.toNat ≤ (fileLba f b).2.toNat) : Request.Inside f ⟨(fileLba f b).1, n⟩ := by
  obtain ⟨ad, k, hl, hb, ht⟩ := fileLba_mapped h
  have hk := locate_lt hl
  obtain ⟨before, after, hads, -⟩ := locate_split hl
  have hleft := adSize_sub_toNat hk
  rw [hb] at h
  obtain ⟨htype, hlba⟩ : ad.extentType = LongAd.extentNormal ∧ ad.lba ≠ 0 := by
    unfold adTarget at h
    split at h
    · exact absurd rfl h
    · split at h
      · exact absurd rfl h
      · exact ⟨not_not.mp ‹_›, ‹_›⟩
  rw [hb, ht, hleft] at hn
  refine ⟨ad, by simp [hads], htype, hlba, k, ?_, ?_⟩
  · simp only
    omega
  · rw [hb, ht]

theorem readBlocks_adds {R : Request → Prop} {lba nblocks : UInt32} (flags : Int)
    (h : R ⟨lba, nblocks⟩) : Proc.Adds (I.requests.readBlocks lba nblocks flags) R := by
  intro s log a s' log' hrun
  unfold BlockInput.readBlocks at hrun
  split at hrun
  · cases hrun
    exact ⟨[], by simp⟩
  · cases hrun
    exact ⟨[⟨lba, nblocks⟩], rfl, by simpa using h⟩

theorem readBlocksLoop_adds (f : UdfFile) (buf : Nat) (fileBlock numBlocks : UInt32) (flags : Int)
    (fuel : Nat) (i : UInt32) (mem : Mem) :
    Proc.Adds (readBlocksLoop I.requests f buf fileBlock numBlocks flags fuel i mem)
      (Request.Inside f) := by
  induction fuel generalizing i mem with
  | zero =>
    rw [readBlocksLoop]
    split
    · exact Proc.adds_ofRes _
    · exact Proc.adds_pure _
  | succ fuel ih =>
    rw [readBlocksLoop]
    split
    · exact Proc.adds_pure _
    · simp only
      split
      · refine (Proc.adds_ofRes _).bind fun blocks => ?_
        split
        · exact ih _ _
        · exact Proc.adds_pure _
      · rename_i hlba
        have hext : (min (fileLba f (fileBlock + i)).2 (numBlocks - i)).toNat ≤
            (fileLba f (fileBlock + i)).2.toNat := by
          rw [UInt32.toNat_min]
          omega
        refine (readBlocks_adds flags (fileLba_inside hlba hext)).bind fun x => ?_
        split
        · exact Proc.adds_pure _
        · exact ih _ _

theorem udfreadReadBlocks_adds (f : UdfFile) (mem : Mem) (buf : Nat)
    (fileBlock numBlocks : UInt32) (flags : Int) :
    Proc.Adds (udfreadReadBlocks I.requests f mem buf fileBlock numBlocks flags)
      (Request.Inside f) := by
  unfold udfreadReadBlocks
  split
  · exact Proc.adds_pure _
  · split
    · exact Proc.adds_pure _
    · exact readBlocksLoop_adds f buf fileBlock numBlocks flags _ 0 mem

theorem readTmp_adds (f : UdfFile) (fileBlock : UInt32) :
    Proc.Adds (readTmp I.requests f fileBlock) (Request.Inside f) := by
  refine (udfreadReadBlocks_adds f f.tmp 0 fileBlock 1 0).bind fun x => ?_
  simp only
  split
  · exact Proc.adds_pure _
  · exact Proc.adds_pure _

theorem validTmp_adds (f : UdfFile) (fileBlock : UInt32) :
    Proc.Adds (validTmp I.requests f fileBlock) (Request.Inside f) := by
  unfold validTmp
  split
  · exact Proc.adds_pure _
  · exact readTmp_adds f fileBlock

theorem readChunk_adds (f : UdfFile) (mem : Mem) (buf : Nat) (bytes : UInt64) :
    Proc.Adds (readChunk I.requests f mem buf bytes) (Request.Inside f) := by
  unfold readChunk
  simp only
  split
  · refine (validTmp_adds f _).bind fun x => ?_
    split
    · exact Proc.adds_pure _
    · exact Proc.adds_pure _
  · split
    · refine (udfreadReadBlocks_adds f mem buf _ _ 0).bind fun x => ?_
      split
      · exact Proc.adds_pure _
      · exact Proc.adds_pure _
    · refine (readTmp_adds f _).bind fun x => ?_
      split
      · exact Proc.adds_pure _
      · exact Proc.adds_pure _

/-! ## The file of a handle stays the same -/

theorem readChunk_same (f : UdfFile) (mem : Mem) (buf : Nat) (bytes : UInt64) :
    Proc.Gives (readChunk I f mem buf bytes) fun x => x.2.1.Same f := by
  unfold readChunk
  simp only
  split
  · refine (show Proc.Gives _ fun x => x.2.Same f from fun _ _ _ h => (validTmp_same h).1).bind
      fun x hx => ?_
    split
    · exact Proc.gives_pure hx
    · exact Proc.gives_pure ⟨hx.1, hx.2⟩
  · split
    · refine (Proc.gives_true _).bind fun x _ => ?_
      split
      · exact Proc.gives_pure (.refl f)
      · exact Proc.gives_pure ⟨rfl, rfl⟩
    · refine (show Proc.Gives _ fun x => x.2.Same f from fun _ _ _ h => (readTmp_same h).1).bind
        fun x hx => ?_
      split
      · exact Proc.gives_pure hx
      · exact Proc.gives_pure ⟨hx.1, hx.2⟩

theorem readChunks_same (fuel : Nat) (f : UdfFile) (mem : Mem) (off : Nat) (bytes : UInt64) :
    Proc.Gives (readChunks I buf fuel f mem off bytes) fun x => x.2.1.Same f := by
  induction fuel generalizing f mem off bytes with
  | zero =>
    rw [readChunks]
    split
    · exact Proc.gives_ofRes fun _ h => by cases h
    · exact Proc.gives_pure (.refl f)
  | succ fuel ih =>
    rw [readChunks]
    split
    · exact Proc.gives_pure (.refl f)
    · refine (readChunk_same f mem (buf + off) bytes).bind fun x hx => ?_
      simp only
      split
      · split
        · exact Proc.gives_pure hx
        · exact Proc.gives_pure hx
      · exact (ih _ _ _ _).mono fun _ h => h.trans hx

theorem udfreadFileRead_same (fuel : Nat) (f : UdfFile) (mem : Mem) (buf : Nat) (bytes : UInt64) :
    Proc.Gives (udfreadFileRead I fuel f mem buf bytes) fun x => x.2.1.Same f := by
  unfold udfreadFileRead
  split
  · exact Proc.gives_pure (.refl f)
  · split
    · exact Proc.gives_pure (.refl f)
    · split
      · exact Proc.gives_ofRes fun _ h => readInline_same h
      · exact (readChunks_same fuel _ mem 0 _).mono fun _ h => h.trans ⟨rfl, rfl⟩

/-- The handle is one of the file, and the log holds requests inside of its extents only. -/
def Logged (f₀ : UdfFile) (f : UdfFile) (log : List Request) : Prop :=
  f.Same f₀ ∧ ∀ q ∈ log, q.Inside f₀

theorem Logged.add {α : Type} {f₀ : UdfFile} {log log' : List Request} {a : α} (h : Logged f₀ f log)
    {x : Proc (σ × List Request) α} (hadds : Proc.Adds x (Request.Inside f))
    (hrun : x (s, log) = .ok (a, (s', log'))) (hsame : f'.Same f) : Logged f₀ f' log' := by
  obtain ⟨new, rfl, hnew⟩ := hadds _ _ _ _ _ hrun
  refine ⟨hsame.trans h.1, fun q hq => ?_⟩
  rcases List.mem_append.mp hq with hq | hq
  · exact h.2 q hq
  · exact (inside_same h.1 q).mp (hnew q hq)

theorem chunkStep_logged {f₀ : UdfFile} {st st' : ChunkState (σ × List Request)}
    (h : Logged f₀ st.file st.input.2) (hstep : ChunkStep I.requests buf st r st') :
    Logged f₀ st'.file st'.input.2 := by
  cases hstep with
  | mk _ hrun => exact h.add (readChunk_adds _ _ _ _) hrun (readChunk_same _ _ _ _ _ _ _ hrun)

theorem readChunks_logged {f₀ : UdfFile} {log log' : List Request} (fuel : Nat) (f : UdfFile)
    (mem : Mem) (off : Nat) (bytes : UInt64) (s : σ) (h : Logged f₀ f log)
    (hrun : readChunks I.requests buf fuel f mem off bytes (s, log) =
      .ok ((r, f', mem'), (s', log'))) : Logged f₀ f' log' := by
  induction fuel generalizing f mem off bytes s log with
  | zero =>
    rw [readChunks] at hrun
    split at hrun
    · cases hrun
    · cases hrun
      exact h
  | succ fuel ih =>
    rw [readChunks] at hrun
    split at hrun
    · cases hrun
      exact h
    · obtain ⟨⟨r₁, f₁, mem₁⟩, ⟨s₁, log₁⟩, hchunk, hrun⟩ := Proc.bind_eq_ok.mp hrun
      have h₁ := h.add (readChunk_adds _ _ _ _) hchunk (readChunk_same _ _ _ _ _ _ _ hchunk)
      simp only at hrun
      split at hrun
      · split at hrun
        · cases hrun
          exact h₁
        · cases hrun
          exact h₁
      · exact ih f₁ mem₁ _ _ s₁ h₁ hrun

theorem udfreadFileRead_logged {f₀ : UdfFile} {log log' : List Request} {fuel : Nat}
    (h : Logged f₀ f log) (hrun : udfreadFileRead I.requests fuel f mem buf bytes (s, log) =
      .ok ((r, f', mem'), (s', log'))) : Logged f₀ f' log' := by
  have hsame := udfreadFileRead_same fuel f mem buf bytes _ _ _ hrun
  unfold udfreadFileRead at hrun
  split at hrun
  · cases hrun
    exact h
  · split at hrun
    · cases hrun
      exact h
    · cases hu : f.fe.u with
      | data content =>
        rw [hu] at hrun
        exact h.add (Proc.adds_ofRes _) hrun hsame
      | ads t ad =>
        rw [hu] at hrun
        have hstart : Logged f₀ { f with block := some f.tmp } log := 
          ⟨⟨h.1.1, h.1.2⟩, h.2⟩
        exact readChunks_logged fuel _ mem 0 _ s hstart hrun

theorem fileStep_logged {f₀ : UdfFile} {limit : Nat} {e : StreamEvent}
    {st st' : UdfFile × σ × List Request} (h : Logged f₀ st.1 st.2.2)
    (hstep : FileStep I.requests limit st e st') : Logged f₀ st'.1 st'.2.2 := by
  have hseek : ∀ {f f' : UdfFile} {log : List Request} {r : Int}, Logged f₀ f log →
      (r = -1 ∧ f' = f) ∨ (r = f'.pos.toNat ∧ f'.Same f ∧ f'.blockValid = false) →
      Logged f₀ f' log := by
    rintro f f' log r h (⟨-, rfl⟩ | ⟨-, hsame, -⟩)
    · exact h
    · exact ⟨hsame.trans h.1, h.2⟩
  cases hstep with
  | seek pos whence _ hhi hs => exact hseek h (udfreadFileSeek_cases hhi hs)
  | seekOverflow _ hhi hs => exact hseek h (seekTo_cases hhi hs)
  | read _ hs => exact udfreadFileRead_logged h hs
  | readBlocks hs => exact h.add (udfreadReadBlocks_adds _ _ _ _ _ _) hs (.refl _)

/-- Whatever is called on the handle of a file, the input is asked for blocks of the recorded
extents of the file only: by all calls that have returned, and by a read under way after each
iteration of its loop. -/
theorem fileRun_inExtents (I : BlockInput σ) {part : UdfPartitions} {fe : FileEntry}
    {es : List StreamEvent} {log : List Request}
    (hrun : Run (FileStep I.requests (2 ^ 64)) (UdfFile.fresh part fe, (s, [])) es
      (f, (s', log))) :
    (∀ q ∈ log, q.Inside (UdfFile.fresh part fe)) ∧
    ∀ mem buf bytes rs st, Run (ChunkStep I.requests buf) (chunkStart f mem bytes (s', log)) rs st →
      ∀ q ∈ st.input.2, q.Inside (UdfFile.fresh part fe) := by
  have hfile : Logged (UdfFile.fresh part fe) f log :=
    hrun.invariant (P := fun st => Logged (UdfFile.fresh part fe) st.1 st.2.2)
      (fun _ _ _ h hstep => fileStep_logged h hstep) ⟨.refl _, by simp⟩
  refine ⟨hfile.2, fun mem buf bytes rs st hchunks => ?_⟩
  have hstart : Logged (UdfFile.fresh part fe) (chunkStart f mem bytes (s', log)).file log :=
    ⟨⟨hfile.1.1, hfile.1.2⟩, hfile.2⟩
  exact (hchunks.invariant (P := fun st => Logged (UdfFile.fresh part fe) st.file st.input.2)
    (fun _ _ _ h hstep => chunkStep_logged h hstep) hstart).2

end

/-- The whole file of three blocks is read by two requests, inside of its second descriptor. -/
theorem fileRun_inExtents_whole :
    Request.Inside twoDescriptors ⟨300, 2⟩ ∧ Request.Inside twoDescriptors ⟨302, 1⟩ := by
  have hread : ∃ f mem, udfreadFileRead (BlockInput.full fun _ _ => 0).requests 5 twoDescriptors
      (fun _ => 1) 0 5000 ((), []) = .ok ((5000, f, mem), ((), [⟨300, 2⟩, ⟨302, 1⟩])) :=
    ⟨_, _, rfl⟩
  obtain ⟨f, mem, hread⟩ := hread
  have hlog := (fileRun_inExtents (BlockInput.full fun _ _ => 0)
    (.cons (.read (by decide) hread) (.nil _))).1
  exact ⟨hlog _ (by simp), hlog _ (by simp)⟩

end UdfRead
