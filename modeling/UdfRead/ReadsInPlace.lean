import UdfRead.ReadBlocks

/-!
# UdfRead.ReadsInPlace

For which requests `udfread_read_blocks` puts every block where it belongs, whatever the input
serves: exactly for those that fit (`readsInPlace_iff`). Block 2^21 of a request is stored at the
start of the buffer again, because `UDF_BLOCK_SIZE * i` is a 32-bit product, and block number 2^32
is block 0, because `file_block + i` is a 32-bit sum.
-/

namespace UdfRead

open CModel

/-- Every block counted by the call is in its place in the buffer. -/
def ReadsInPlace (f : UdfFile) (fileBlock numBlocks : UInt32) : Prop :=
  ∀ (σ : Type) (media : Media) (I : BlockInput σ), I.Serves media →
    ∀ (s : σ) (mem : Mem) (buf : Nat) (flags : Int), ∃ r mem' s',
      udfreadReadBlocks I f mem buf fileBlock numBlocks flags s = .ok ((r, mem'), s') ∧
      ∀ k, k < r.toNat → fileBlock.toNat + k < 2 ^ 32 ∧ ∀ o, o < 2048 →
        mem' (buf + 2048 * k + o) = blockByte media f (fileBlock + UInt32.ofNat k) o

theorem single_count (nblocks : UInt32) : (if nblocks = 0 then 0 else 1 : Int) ≤ nblocks.toNat := by
  by_cases h : nblocks = 0
  · simp [h]
  · have h0 : nblocks.toNat ≠ 0 := fun h' => h (UInt32.toNat_inj.mp h')
    simp only [h, if_false]
    omega

/-- An input that serves one block per request and overwrites the rest of the buffer. -/
def BlockInput.single (media : Media) (rest : UInt8) : BlockInput Unit where
  read lba nblocks _ s :=
    (⟨if nblocks = 0 then 0 else 1, fun x => if x < 2048 then media lba x else rest⟩, s)
  size := none
  count_le _ nblocks _ _ := single_count nblocks

theorem BlockInput.single_serves (media : Media) (rest : UInt8) :
    (BlockInput.single media rest).Serves media := by
  intro lba n flags s k hk
  have hl := lba.toNat_lt
  by_cases hn : n = 0
  · simp [BlockInput.single, hn] at hk
    omega
  · simp only [BlockInput.single, hn, if_false] at hk ⊢
    obtain rfl : k = 0 := by omega
    exact ⟨by omega, fun o ho => by simp [ho]⟩

theorem BlockInput.single_neverFails (media : Media) (rest : UInt8) :
    (BlockInput.single media rest).NeverFails := by
  intro lba n flags s hn
  simp [BlockInput.single, hn]

section

variable {f : UdfFile} {buf : Nat} {fileBlock numBlocks : UInt32} {flags : Int}

/-- Requests that fit are read in place. -/
theorem readsInPlace_of_fit (hf : f.contentInline = false)
    (hfit : BlocksFit f fileBlock numBlocks) : ReadsInPlace f fileBlock numBlocks := by
  intro σ media I hI s mem buf flags
  obtain ⟨r, mem', s', hrun, hread⟩ := udfreadReadBlocks_fit hI hf hfit mem buf flags s
  exact ⟨r, mem', s', hrun, fun k hk => hread.bytes k (by simp) hk⟩

/-! ## Requests that do not fit -/

/-- What the input answers to a request for one block or more. -/
theorem single_read {media : Media} {rest : UInt8} {lba nblocks : UInt32} {s : Unit} {got : UInt32}
    {data : Nat → UInt8} (hg : 1 ≤ got.toNat)
    (h : ((BlockInput.single media rest).read lba nblocks flags s).1 = ⟨got.toNat, data⟩) :
    got.toNat = 1 ∧ data = fun x => if x < 2048 then media lba x else rest := by
  simp only [BlockInput.single, Transfer.mk.injEq] at h
  obtain ⟨hc, hd⟩ := h
  split at hc
  · omega
  · exact ⟨by omega, hd.symm⟩

/-- One block at a time, every block that is counted was looked up. -/
theorem single_readable {media : Media} {rest : UInt8} {r : UInt32} {mem mem' : Mem}
    (hrun : readBlocksLoop (BlockInput.single media rest) f buf fileBlock numBlocks flags
      numBlocks.toNat 0 mem () = .ok ((r, mem'), ())) :
    ∀ k, k < r.toNat → Readable f (fileBlock + UInt32.ofNat k) := by
  have hnum := numBlocks.toNat_lt
  have h := readBlocksLoop_ind (P := fun i _ r _ =>
      (∀ k, k < i.toNat → Readable f (fileBlock + UInt32.ofNat k)) →
        ∀ k, k < r.toNat → Readable f (fileBlock + UInt32.ofNat k))
    (BlockInput.single_serves media rest) ?_ ?_ ?_ ?_ ?_ numBlocks.toNat 0 mem () r mem' ()
    (by simp) hrun
  · exact h (by simp)
  · exact fun mem h => h
  · exact fun i mem n hi hl hb hlt h => h
  · intro i mem r mem' n hi hl hb hlt ih h
    have hin := UInt32.lt_iff_toNat_lt.mp hi
    refine ih fun k hk => ?_
    rw [UInt32.toNat_add] at hk
    simp at hk
    rcases Nat.lt_or_ge k i.toNat with hki | hki
    · exact h k hki
    · obtain rfl : k = i.toNat := by omega
      exact readable_iff.mpr (.inr ⟨n, hb, by rwa [UInt32.ofNat_toNat]⟩)
  · exact fun i mem run data hi hl hn => absurd (BlockInput.single_neverFails media rest) hn
  · intro i mem run got data s r mem' hi hl hrun hg hgr hc hd ih h
    refine ih fun k hk => ?_
    rw [UInt32.toNat_add, (single_read hg hc).1, Nat.mod_eq_of_lt (by omega)] at hk
    rcases Nat.lt_or_ge k i.toNat with hki | hki
    · exact h k hki
    · obtain rfl : k = i.toNat := by omega
      exact .inl (by rwa [UInt32.ofNat_toNat])

/-- One block at a time, nothing but the input's filler is stored 2^32 bytes into the buffer: the
blocks themselves all go below. -/
theorem single_far {media : Media} {rest : UInt8} {fuel : Nat} {i r : UInt32} {mem mem' : Mem}
    (hle : i.toNat ≤ numBlocks.toNat)
    (hrun : readBlocksLoop (BlockInput.single media rest) f buf fileBlock numBlocks flags
      fuel i mem () = .ok ((r, mem'), ())) (hm : mem (buf + 2 ^ 32) = rest) :
    mem' (buf + 2 ^ 32) = rest := by
  have hoff : ∀ i : UInt32, (2048 * i).toNat + 2048 ≤ 2 ^ 32 := by
    intro i
    rw [UInt32.toNat_mul]
    show 2048 * i.toNat % 2 ^ 32 + 2048 ≤ _
    omega
  refine readBlocksLoop_ind (P := fun _ mem _ mem' =>
      mem (buf + 2 ^ 32) = rest → mem' (buf + 2 ^ 32) = rest)
    (BlockInput.single_serves media rest) ?_ ?_ ?_ ?_ ?_ fuel i mem () r mem' () hle hrun hm
  · exact fun mem h => h
  · exact fun i mem n hi hl hb hlt h => h
  · intro i mem r mem' n hi hl hb hlt ih h
    exact ih (by rw [Mem.blit_out (.inr (by have := hoff i; omega)), h])
  · exact fun i mem run data hi hl hn => absurd (BlockInput.single_neverFails media rest) hn
  · intro i mem run got data s r mem' hi hl hrun hg hgr hc hd ih h
    refine ih ?_
    have := hoff i
    by_cases hx : buf + 2 ^ 32 < buf + (2048 * i).toNat + 2048 * run
    · rw [Mem.blit_in (by omega) hx, (single_read hg hc).2]
      exact if_neg (by omega)
    · rw [Mem.blit_out (by omega), h]

/-- At full service, a run that passes block number 2^32 is served in one go, so the loop does not
end there. -/
theorem full_crosses {media : Media} {k : Nat} (hk : k < numBlocks.toNat)
    (hkw : fileBlock.toNat + k = 2 ^ 32) (hlast : (fileLba f 0xffffffff).1 ≠ 0)
    (hlba : (fileLba f 0xffffffff).1.toNat + 1 < 2 ^ 32)
    (hext : 1 < (fileLba f 0xffffffff).2.toNat) {r : UInt32} {mem mem' : Mem}
    (hrun : readBlocksLoop (BlockInput.full media) f buf fileBlock numBlocks flags
      numBlocks.toNat 0 mem () = .ok ((r, mem'), ())) : r.toNat ≠ k := by
  have hnum := numBlocks.toNat_lt
  have hb0 := fileBlock.toNat_lt
  have h := readBlocksLoop_ind (P := fun i _ r _ => i.toNat ≠ k → r.toNat ≠ k)
    (BlockInput.full_serves media) ?_ ?_ ?_ ?_ ?_ numBlocks.toNat 0 mem () r mem' () (by simp) hrun
  · exact h (by simp; omega)
  · exact fun mem _ => by omega
  · exact fun i mem n hi hl hb hlt h => h
  · intro i mem r mem' n hi hl hb hlt ih hik
    have hin := UInt32.lt_iff_toNat_lt.mp hi
    have h1 : (i + 1).toNat = i.toNat + 1 := by
      rw [UInt32.toNat_add]; simp; omega
    refine ih fun hc => hlast ?_
    have : fileBlock + i = 0xffffffff := by
      apply UInt32.toNat_inj.mp
      rw [UInt32.toNat_add]
      show _ = 2 ^ 32 - 1
      omega
    rwa [← this]
  · exact fun i mem run data hi hl hn => absurd (BlockInput.full_neverFails media) hn
  · intro i mem run got data s r mem' hi hl hrun hg hgr hc hd ih hik
    have hin := UInt32.lt_iff_toNat_lt.mp hi
    rw [UInt32.toNat_add, Nat.mod_eq_of_lt (by omega)] at ih
    refine ih fun hgk => ?_
    -- the run would end with block 2^32 - 1, which has a successor
    have hb : (fileBlock + i).toNat = fileBlock.toNat + i.toNat := by
      rw [UInt32.toNat_add]; omega
    have hrunlt : run < 2 ^ 31 := by have := fileLba_lt hl; omega
    have hcount : (got.toNat : Int) =
        (min run (2 ^ 32 - (fileLba f (fileBlock + i)).1.toNat) : Nat) := by
      have := congrArg Transfer.count hc
      simp only [BlockInput.full, UInt32.toNat_ofNat', Nat.mod_eq_of_lt (show run < 2 ^ 32 by omega)]
        at this
      exact this.symm
    have hend : fileBlock + i + UInt32.ofNat (got.toNat - 1) = 0xffffffff := by
      apply UInt32.toNat_inj.mp
      rw [UInt32.toNat_add, hb, UInt32.toNat_ofNat']
      show _ = 2 ^ 32 - 1
      omega
    have hr := fileLba_run hl (j := got.toNat - 1) (by omega) (by omega)
    have hgn : (UInt32.ofNat (got.toNat - 1)).toNat = got.toNat - 1 := by
      rw [UInt32.toNat_ofNat', Nat.mod_eq_of_lt (by omega)]
    rw [hend] at hr
    rw [hr] at hlba hext
    simp only at hlba hext
    rw [toNat_sub_of_le (by rw [hgn]; omega), hgn] at hext
    have hsrv := (hd (got.toNat - 1) (by omega)).1
    rw [UInt32.toNat_add, hgn, Nat.mod_eq_of_lt hsrv] at hlba
    omega

/-- A stretch that passes one of the two limits has a first block that does. -/
theorem exists_limit {k : Nat} (h : ¬ (k < 2 ^ 21 ∧ fileBlock.toNat + k < 2 ^ 32)) :
    ∃ k', k' ≤ k ∧ k' ≤ 2 ^ 21 ∧ fileBlock.toNat + k' ≤ 2 ^ 32 ∧
      (fileBlock.toNat + k' = 2 ^ 32 ∨ k' = 2 ^ 21 ∧ fileBlock.toNat + k' < 2 ^ 32) := by
  have := fileBlock.toNat_lt
  by_cases h32 : 2 ^ 32 ≤ fileBlock.toNat + 2 ^ 21
  · exact ⟨2 ^ 32 - fileBlock.toNat, by omega, by omega, by omega, .inl (by omega)⟩
  · exact ⟨2 ^ 21, by omega, le_refl _, by omega, .inr ⟨rfl, by omega⟩⟩

/-- Over an input that never fails, a stretch of readable blocks is counted as read. -/
theorem counts_stretch {σ : Type} {I : BlockInput σ} {media : Media} (hI : I.Serves media)
    (hn : I.NeverFails) {k : Nat} (hk : k < numBlocks.toNat)
    (hR : ∀ j, j < k → Readable f (fileBlock + UInt32.ofNat j)) {r : UInt32} {mem mem' : Mem}
    {s s' : σ} (hrun : readBlocksLoop I f buf fileBlock numBlocks flags numBlocks.toNat 0 mem s =
      .ok ((r, mem'), s')) : k ≤ r.toNat := by
  by_contra hc
  obtain ⟨_, hrn, hstop⟩ := readBlocksLoop_neverFails hI hn (by simp) hrun
  refine (hstop fun h => by rw [h] at hc; omega).1 ?_
  have := hR r.toNat (by omega)
  rwa [UInt32.ofNat_toNat] at this

theorem readable_of_countable {k : Nat} (h : Countable f (fileBlock.toNat + k))
    (hw : fileBlock.toNat + k < 2 ^ 32) : Readable f (fileBlock + UInt32.ofNat k) := by
  rwa [Countable, if_pos hw, ofNat_toNat_add] at h

/-- Block 2^21 of a stretch, or block number 2^32, is not read in place. -/
theorem not_inPlace_of_stretch (hf : f.contentInline = false) {k : Nat} (hk : k < numBlocks.toNat)
    (hc : ∀ j, j ≤ k → Countable f (fileBlock.toNat + j))
    (hlim : ¬ (k < 2 ^ 21 ∧ fileBlock.toNat + k < 2 ^ 32)) :
    ¬ ReadsInPlace f fileBlock numBlocks := by
  intro h
  obtain ⟨k', hkk, hk21, hw, hcase⟩ := exists_limit hlim
  have hR : ∀ j, j < k' → Readable f (fileBlock + UInt32.ofNat j) := fun j hj =>
    readable_of_countable (hc j (by omega)) (by omega)
  rcases hcase with h32 | ⟨h21, hw'⟩
  · obtain ⟨r, mem', s', hrun, hread⟩ := h Unit (fun _ _ => 0) (BlockInput.full fun _ _ => 0)
      (BlockInput.full_serves _) () (fun _ => 0) 0 0
    rw [udfreadReadBlocks_eq_loop hf] at hrun
    have hkr := counts_stretch (BlockInput.full_serves _) (BlockInput.full_neverFails _)
      (show k' < numBlocks.toNat by omega) hR hrun
    have hne : r.toNat ≠ k' := by
      have hck := hc k' hkk
      rw [Countable, if_neg (by omega)] at hck
      rcases hck with hzero | ⟨hlast, hlba, hext⟩
      · intro hrk
        obtain ⟨_, _, hstop⟩ := readBlocksLoop_neverFails (BlockInput.full_serves _)
          (BlockInput.full_neverFails _) (by simp) hrun
        refine (hstop fun hrn => by rw [hrn] at hrk; omega).1 ?_
        have : fileBlock + r = 0 := by
          apply UInt32.toNat_inj.mp
          rw [UInt32.toNat_add, hrk, h32]
          rfl
        rwa [this]
      · exact full_crosses (by omega) h32 hlast hlba hext hrun
    have := (hread k' (by omega)).1
    omega
  · obtain ⟨r, mem', s', hrun, hread⟩ := h Unit (fun _ _ => 1) (BlockInput.single (fun _ _ => 1) 2)
      (BlockInput.single_serves _ _) () (fun _ => 2) 0 0
    rw [udfreadReadBlocks_eq_loop hf] at hrun
    have hfar := single_far (by simp) hrun rfl
    have hkr : k' < r.toNat := by
      have hkr := counts_stretch (BlockInput.single_serves _ _) (BlockInput.single_neverFails _ _)
        (show k' < numBlocks.toNat by omega) hR hrun
      obtain ⟨_, _, hstop⟩ := readBlocksLoop_neverFails (BlockInput.single_serves _ _)
        (BlockInput.single_neverFails _ _) (by simp) hrun
      refine lt_of_le_of_ne hkr fun hrk => (hstop fun hrn => by rw [hrn] at hrk; omega).1 ?_
      have := readable_of_countable (hc k' hkk) hw'
      rwa [hrk, UInt32.ofNat_toNat] at this
    have hb := (hread k' hkr).2 0 (by omega)
    rw [h21, show 0 + 2048 * 2 ^ 21 + 0 = 0 + 2 ^ 32 by rfl, hfar, blockByte] at hb
    split at hb <;> simp at hb

theorem fit_of_readsInPlace (hf : f.contentInline = false)
    (h : ReadsInPlace f fileBlock numBlocks) : BlocksFit f fileBlock numBlocks where
  stretch := by
    intro k hk hc
    by_contra hlim
    exact not_inPlace_of_stretch hf hk hc hlim h
  noOverflow := by
    intro k hk hl
    by_contra hov
    obtain ⟨r, mem', s', hrun, -⟩ := h Unit (fun _ _ => 0) (BlockInput.single (fun _ _ => 0) 0)
      (BlockInput.single_serves _ _) () (fun _ => 0) 0 0
    rw [udfreadReadBlocks_eq_loop hf] at hrun
    obtain ⟨_, _, hstop⟩ := readBlocksLoop_neverFails (BlockInput.single_serves _ _)
      (BlockInput.single_neverFails _ _) (by simp) hrun
    obtain rfl : r = numBlocks := by
      by_contra hr
      exact hov (hstop hr).2
    exact hov ((single_readable hrun k hk).resolve_left (not_not_intro hl)).1

/-- `udfread_read_blocks` reads a request in place, over every input, exactly if it fits. -/
theorem readsInPlace_iff (hf : f.contentInline = false) :
    ReadsInPlace f fileBlock numBlocks ↔ BlocksFit f fileBlock numBlocks :=
  ⟨fit_of_readsInPlace hf, readsInPlace_of_fit hf⟩

end

/-- The three blocks of a file behind two descriptors. -/
theorem readsInPlace_iff_recorded :
    twoDescriptors.contentInline = false ∧ ReadsInPlace twoDescriptors 0 3 := by
  have hfit : BlocksFit twoDescriptors 0 3 :=
    ⟨fun k hk _ => by have : k < 3 := hk; simp; omega, fun _ _ _ => by
      show signed64 5000 + 2048 < 2 ^ 63
      decide⟩
  exact ⟨rfl, (readsInPlace_iff rfl).mpr hfit⟩

/-! ## A file of zeros -/

/-- A file without allocation descriptors: all its blocks read as zeros. -/
def UdfFile.sparse (length : UInt64) : UdfFile :=
  .fresh .zero { length, fileType := 5, u := .ads .long [] }

/-- Block 2^21 of a request for 2^21 + 1 blocks is counted as read, and its place is not zeroed. -/
theorem udfreadReadBlocks_wraps :
    ∃ r mem' s', udfreadReadBlocks (BlockInput.single (fun _ _ => 1) 2) (.sparse 4294969344)
        (fun _ => 2) 0 0 2097153 0 () = .ok ((r, mem'), s') ∧
      (BlockInput.single (fun _ _ => 1) 2).Serves (fun _ _ => 1) ∧ 2 ^ 21 < r.toNat ∧
      mem' (0 + 2048 * 2 ^ 21 + 0) ≠
        blockByte (fun _ _ => 1) (.sparse 4294969344) (0 + UInt32.ofNat (2 ^ 21)) 0 := by
  have hb : fileBlocks (.sparse 4294969344) = .ok 2097153 := by decide
  rw [udfreadReadBlocks_eq_loop rfl]
  have hI := BlockInput.single_serves (fun _ _ => 1) 2
  obtain ⟨r, mem', s', hrun⟩ : ∃ r mem' s', readBlocksLoop (BlockInput.single (fun _ _ => 1) 2)
      (.sparse 4294969344) 0 0 2097153 0 (2097153 : UInt32).toNat 0 (fun _ => 2) () =
        .ok ((r, mem'), s') :=
    readBlocksLoop_returns hI (fun k hk hl => lengthFits_iff.mpr ⟨_, hb⟩) _ 0 _ () (by simp)
  refine ⟨r, mem', s', hrun, hI, ?_, ?_⟩
  · obtain ⟨_, hrn, hstop⟩ := readBlocksLoop_neverFails hI (BlockInput.single_neverFails _ _)
      (by simp) hrun
    by_contra hlt
    refine (hstop fun h => by rw [h] at hlt; exact hlt (by decide)).1
      (readable_iff.mpr (.inr ⟨_, hb, ?_⟩))
    rw [UInt32.lt_iff_toNat_lt, UInt32.zero_add]
    show r.toNat < 2097153
    omega
  · have hfar := single_far (by simp) hrun rfl
    rw [show 0 + 2048 * 2 ^ 21 + 0 = 0 + 2 ^ 32 by rfl, hfar]
    decide

end UdfRead
