import UdfRead.ByteStream
import UdfRead.Lib.Simulation

/-!
# UdfRead.StreamRefinement

An open file refines a seekable byte stream. The abstract stream (`StreamStep`) has a position and
fixed content: a read delivers the bytes at the position and moves behind them, or leaves the
position alone. `fileRun_refines`: every run of seek, read and block read calls on a new handle,
with an input that may fail and serve short at any time, is a run of that stream.
-/

namespace UdfRead

open CModel

/-- What the caller sees of one call. -/
inductive StreamEvent where
  | seek (r : Int)
  | read (r : Int) (data : Nat → UInt8)
  | readBlocks (r : UInt32)

inductive StreamStep (content : Nat → UInt8) : Nat → StreamEvent → Nat → Prop where
  | seek (pos pos' : Nat) : StreamStep content pos (.seek pos') pos'
  | seekFails (pos : Nat) : StreamStep content pos (.seek (-1)) pos
  | read {pos count : Nat} {data : Nat → UInt8} : (∀ k, k < count → data k = content (pos + k)) →
      StreamStep content pos (.read count data) (pos + count)
  | readFails (pos : Nat) (data : Nat → UInt8) : StreamStep content pos (.read (-1) data) pos
  | readBlocks (pos : Nat) (r : UInt32) : StreamStep content pos (.readBlocks r) pos

variable {σ : Type}

/-- One call on a handle that returns; reads ask for less than `limit` bytes. The caller's memory
may be any at each call. A seek whose signed sum overflows has no defined result in C: here it may
seek to any number. -/
inductive FileStep (I : BlockInput σ) (limit : Nat) :
    UdfFile × σ → StreamEvent → UdfFile × σ → Prop where
  | seek {f f' : UdfFile} {s : σ} {r : Int} (pos whence : Int) : -2 ^ 63 ≤ pos → pos < 2 ^ 63 →
      udfreadFileSeek f pos whence = .ok (r, f') → FileStep I limit (f, s) (.seek r) (f', s)
  | seekOverflow {f f' : UdfFile} {s : σ} {pos whence sum r : Int} :
      udfreadFileSeek f pos whence = .error .signedOverflow → sum < 2 ^ 63 →
      seekTo f sum = (r, f') → FileStep I limit (f, s) (.seek r) (f', s)
  | read {f f' : UdfFile} {s s' : σ} {fuel buf : Nat} {bytes : UInt64} {mem mem' : Mem} {r : Int} :
      bytes.toNat < limit →
      udfreadFileRead I fuel f mem buf bytes s = .ok ((r, f', mem'), s') →
      FileStep I limit (f, s) (.read r fun k => mem' (buf + k)) (f', s')
  | readBlocks {f : UdfFile} {s s' : σ} {buf : Nat} {fileBlock numBlocks r : UInt32} {flags : Int}
      {mem mem' : Mem} :
      udfreadReadBlocks I f mem buf fileBlock numBlocks flags s = .ok ((r, mem'), s') →
      FileStep I limit (f, s) (.readBlocks r) (f, s')

section

variable {I : BlockInput σ} {media : Media} {f f₀ : UdfFile}

/-- A seek fails and changes nothing, or sets the position and drops the temporary block. -/
theorem seekTo_cases {pos r : Int} {f' : UdfFile} (hpos : pos < 2 ^ 63)
    (h : seekTo f pos = (r, f')) :
    (r = -1 ∧ f' = f) ∨ (r = f'.pos.toNat ∧ f'.Same f ∧ f'.blockValid = false) := by
  unfold seekTo at h
  split at h
  · have hn : (UInt64.ofNat pos.toNat).toNat = pos.toNat := by
      rw [UInt64.toNat_ofNat', Nat.mod_eq_of_lt (by omega)]
    cases h
    exact .inr ⟨signed64_of_lt (by simp only [hn]; omega), ⟨rfl, rfl⟩, rfl⟩
  · cases h
    exact .inl ⟨rfl, rfl⟩

theorem addSigned64_lt {a b c : Int} (h : addSigned64 a b = .ok c) : c < 2 ^ 63 := by
  unfold addSigned64 at h
  split at h
  · cases h
    omega
  · cases h

/-- A seek that returns is one to a number of the signed type, or has an unknown `whence`. -/
theorem udfreadFileSeek_cases {pos whence r : Int} {f' : UdfFile} (hpos : pos < 2 ^ 63)
    (h : udfreadFileSeek f pos whence = .ok (r, f')) :
    (r = -1 ∧ f' = f) ∨ (r = f'.pos.toNat ∧ f'.Same f ∧ f'.blockValid = false) := by
  unfold udfreadFileSeek at h
  split at h
  · obtain ⟨sum, hsum, hto⟩ := Res.bind_eq_ok.mp h
    exact seekTo_cases (addSigned64_lt hsum) (Except.ok.inj hto)
  · split at h
    · obtain ⟨sum, hsum, hto⟩ := Res.bind_eq_ok.mp h
      exact seekTo_cases (addSigned64_lt hsum) (Except.ok.inj hto)
    · split at h
      · exact seekTo_cases hpos (Except.ok.inj h)
      · cases h
        exact .inl ⟨rfl, rfl⟩

/-- A handle stands for the stream at its position. -/
def Refines (media : Media) (f₀ : UdfFile) (st : UdfFile × σ) (pos : Nat) : Prop :=
  st.1.Same f₀ ∧ Cached media st.1 ∧ st.1.pos.toNat = pos

theorem refines_seek {f' : UdfFile} {s : σ} {pos : Nat} {r : Int}
    (hR : Refines media f₀ (f, s) pos)
    (h : (r = -1 ∧ f' = f) ∨ (r = f'.pos.toNat ∧ f'.Same f ∧ f'.blockValid = false)) :
    ∃ pos', StreamStep (logicalByte media f₀) pos (.seek r) pos' ∧
      Refines media f₀ (f', s) pos' := by
  rcases h with ⟨hr, hf⟩ | ⟨hr, hsame, hv⟩
  · subst hr hf
    exact ⟨pos, .seekFails pos, hR⟩
  · subst hr
    refine ⟨f'.pos.toNat, .seek _ _, hsame.trans hR.1, fun _ hv' => ?_, rfl⟩
    rw [hv] at hv'
    cases hv'

/-- The simulation: each call keeps the handle on its stream. -/
theorem fileStep_refines (hI : I.Serves media) (hlen : f₀.InRange) (hsized : f₀.fe.Sized)
    (st : UdfFile × σ) (pos : Nat) (e : StreamEvent) (st' : UdfFile × σ)
    (hR : Refines media f₀ st pos) (h : FileStep I (2 ^ 32) st e st') :
    ∃ pos', StreamStep (logicalByte media f₀) pos e pos' ∧ Refines media f₀ st' pos' := by
  cases h with
  | seek pos whence hlo hhi h => exact refines_seek hR (udfreadFileSeek_cases hhi h)
  | seekOverflow ht hhi h => exact refines_seek hR (seekTo_cases hhi h)
  | read hb h =>
    rename_i f f' s s' fuel buf bytes mem mem' r
    obtain ⟨hsame, hc, rfl⟩ := hR
    have hfe : f.fe = f₀.fe := hsame.2
    have hspec := udfreadFileRead_spec hI (show f.fe.length.toNat ≤ _ by rw [hfe]; exact hlen)
      (by rw [hfe]; exact hsized) hc hb fuel mem buf s
    rw [h] at hspec
    have hd := Res.post_ok.mp hspec
    have hsame' := hd.same.trans hsame
    rcases hd.result with ⟨-, hr, hpos⟩ | ⟨count, hr, -, -, hpos, hold⟩
    · simp only at hr hpos
      subst hr
      refine ⟨_, .readFails _ _, hsame', hd.cached, ?_⟩
      simp only [hpos]
    · simp only [Nat.zero_add] at hr
      subst hr
      refine ⟨_, .read fun k hk => ?_, hsame', hd.cached, hpos⟩
      rw [← logicalByte_same hsame]
      exact hold k hk
  | readBlocks h => exact ⟨pos, .readBlocks pos _, hR⟩

end

/-- Every run of calls on a new handle is a run of the byte stream of the file's content, and after
it every read returns. -/
theorem fileRun_refines {I : BlockInput σ} {media : Media} (hI : I.Serves media)
    (part : UdfPartitions) (fe : FileEntry) (hlen : fe.length.toNat ≤ (2 ^ 32 - 1) * 2048)
    (hsized : fe.Sized) (s : σ) (es : List StreamEvent) (f' : UdfFile) (s' : σ)
    (hrun : Run (FileStep I (2 ^ 32)) (UdfFile.fresh part fe, s) es (f', s')) :
    Run (StreamStep (logicalByte media (.fresh part fe))) 0 es f'.pos.toNat ∧
      ∀ (bytes : UInt64) (fuel : Nat) (mem : Mem) (buf : Nat), bytes.toNat < 2 ^ 32 →
        bytes.toNat ≤ fuel → ∃ r f'' mem'' s'',
          udfreadFileRead I fuel f' mem buf bytes s' = .ok ((r, f'', mem''), s'') := by
  have hR : Refines media (.fresh part fe) (UdfFile.fresh part fe, s) 0 :=
    ⟨.refl _, fun _ hv => (by cases hv), rfl⟩
  have hstep := fileStep_refines hI (show (UdfFile.fresh part fe).InRange from hlen) hsized
  obtain ⟨pos, hstream, hsame, hc, hpos⟩ := hrun.simulates hstep hR
  refine ⟨by rw [hpos]; exact hstream, fun bytes fuel mem buf hb hfuel => ?_⟩
  have hfe : f'.fe = fe := hsame.2
  have hspec := udfreadFileRead_spec hI (show f'.fe.length.toNat ≤ _ by rw [hfe]; exact hlen)
    (by rw [hfe]; exact hsized) hc hb fuel mem buf s'
  cases hres : udfreadFileRead I fuel f' mem buf bytes s' with
  | error t =>
    rw [hres] at hspec
    have := Res.post_error.mp hspec
    omega
  | ok p => exact ⟨p.1.1, p.1.2.1, p.1.2.2, p.2, rfl⟩

/-- The medium read one block at a time. Every third request fails. -/
def BlockInput.faltering (media : Media) : BlockInput Nat where
  read lba nblocks _ s := (⟨if s % 3 = 2 ∨ nblocks = 0 then -1 else 1, media lba⟩, s + 1)
  size := none
  count_le := by
    intro lba nblocks _ s
    by_cases hn : nblocks = 0
    · simp [hn]
    · have h0 : nblocks.toNat ≠ 0 := fun h => hn (UInt32.toNat_inj.mp h)
      simp only [hn, or_false]
      split <;> omega

theorem BlockInput.faltering_serves (media : Media) : (BlockInput.faltering media).Serves media := by
  intro lba nblocks flags s k hk
  have hlba := lba.toNat_lt
  simp only [BlockInput.faltering] at hk ⊢
  split at hk
  · omega
  · obtain rfl : k = 0 := by omega
    exact ⟨by omega, fun o _ => by simp⟩

/-- A handle at byte 1000 after a read that failed there: the storage for one block has what the
request left in it. -/
def afterFailure : UdfFile :=
  { twoDescriptors with pos := 1000, block := some (Mem.blit (fun _ => 0) 0 2048 fun _ => 44) }

/-- Over that input, of a file of three blocks: two blocks, a seek from the end, a read that fails,
and one to the end of the file that stops where the last block fails. -/
theorem fileRun_refines_faltering :
    ∃ data data', Run (StreamStep (logicalByte (fun lba _ => lba.toUInt8) twoDescriptors)) 0
      [.readBlocks 2, .seek 1000, .read (-1) data, .read 3096 data'] 4096 := by
  have hblocks : ∃ mem, udfreadReadBlocks (.faltering fun lba _ => lba.toUInt8) twoDescriptors
      (fun _ => 9) 0 0 2 0 0 = .ok ((2, mem), 2) := ⟨_, rfl⟩
  have hseek : udfreadFileSeek twoDescriptors (-4000) seekEnd =
      .ok (1000, { twoDescriptors with pos := 1000 }) := rfl
  have hfailed : ∃ mem, udfreadFileRead (.faltering fun lba _ => lba.toUInt8) 5
      { twoDescriptors with pos := 1000 } (fun _ => 9) 0 4000 2 =
        .ok ((-1, afterFailure, mem), 3) := ⟨_, rfl⟩
  have hread : ∃ f mem, udfreadFileRead (.faltering fun lba _ => lba.toUInt8) 5 afterFailure
      (fun _ => 9) 0 4000 3 = .ok ((3096, f, mem), 6) ∧ f.pos.toNat = 4096 := ⟨_, _, rfl, rfl⟩
  obtain ⟨mem₁, hblocks⟩ := hblocks
  obtain ⟨mem₂, hfailed⟩ := hfailed
  obtain ⟨f, mem₃, hread, hpos⟩ := hread
  have hrun := (fileRun_refines (BlockInput.faltering_serves _) .zero twoDescriptors.fe (by decide)
    (show 2 < 2 ^ 32 by decide) 0 _ f 6 (.cons (.readBlocks hblocks)
      (.cons (.seek (-4000) seekEnd (by decide) (by decide) hseek)
        (.cons (.read (by decide) hfailed) (.cons (.read (by decide) hread) (.nil _)))))).1
  exact ⟨_, _, hpos ▸ hrun⟩

end UdfRead
