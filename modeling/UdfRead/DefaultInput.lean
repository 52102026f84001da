import UdfRead.BlockInput

/-!
# UdfRead.DefaultInput

`_def_read` of `default_blockinput.c`, the read callback over a file, with whatever the operating
system answers to its `pread` calls. `Answers`: the sequences of answers that end a call.

* `defRead_contract`: the count is that of the complete blocks received before the end, the buffer
  holds them, and a block that is filled in part is not counted.
* `isDefault_serves`: the input serves the content of its file, so all that holds over an input
  that may serve short and fail at any time holds over this one.
-/

namespace UdfRead

open CModel

/-- What one `pread` returns: a count above 0, -1 with the `errno` EINTR or with another one, or 0
at the end of the file. -/
inductive Pread where
  | count (n : UInt64)
  | interrupted
  | failed
  | endOfFile
  deriving DecidableEq, Repr

/-- `return got / UDF_BLOCK_SIZE`: a `size_t`, converted to `int`. -/
def blockCount (got : UInt64) : Int := ((got / 2048).toNat : Int).bmod (2 ^ 32)

/-- After `ret <= 0`: return it, or leave the loop. -/
def stopRead (ret : Int) (got : UInt64) : Int := if got < 2048 then ret else blockCount got

/-- The loop of `_def_read`; each turn takes one answer. -/
def defReadLoop (file : Nat → UInt8) (buf : Nat) (bytes : UInt64) (pos : Int) :
    List Pread → (got : UInt64) → Mem → Res (Int × Mem)
  | [], got, mem => if got < bytes then .error .outOfFuel else .ok (blockCount got, mem)
  | answer :: rest, got, mem =>
    if ¬ got < bytes then .ok (blockCount got, mem)
    else do
      let offset ← addSigned64 pos (signed64 got)
      match answer with
      | .interrupted => defReadLoop file buf bytes pos rest got mem
      | .failed => return (stopRead (-1) got, mem)
      | .endOfFile => return (stopRead 0 got, mem)
      | .count n =>
        defReadLoop file buf bytes pos rest (got + n)
          (mem.blit (buf + got.toNat) n.toNat fun k => file (offset.toNat + k))

/-- `_def_read` into the buffer at address `buf`. -/
def defRead (file : Nat → UInt8) (mem : Mem) (buf : Nat) (lba nblocks : UInt32)
    (answers : List Pread) : Res (Int × Mem) :=
  defReadLoop file buf (nblocks.toUInt64 * 2048) (lba.toNat * 2048) answers 0 mem

/-- The answers that end a call which has `got` of its `bytes` bytes: no count is larger than the
request, and the last answer completes the request, or is an error or the end of the file. -/
inductive Answers (bytes : Nat) : (got : Nat) → List Pread → Prop where
  | full : Answers bytes bytes []
  | failed {got : Nat} : got < bytes → Answers bytes got [.failed]
  | endOfFile {got : Nat} : got < bytes → Answers bytes got [.endOfFile]
  | interrupted {got : Nat} {rest : List Pread} : got < bytes → Answers bytes got rest →
      Answers bytes got (.interrupted :: rest)
  | count {got : Nat} {n : UInt64} {rest : List Pread} : 1 ≤ n.toNat → got + n.toNat ≤ bytes →
      Answers bytes (got + n.toNat) rest → Answers bytes got (.count n :: rest)

/-- The bytes an answer delivers. -/
def Pread.size : Pread → Nat
  | .count n => n.toNat
  | _ => 0

/-- The bytes a sequence of answers delivers. -/
def received (answers : List Pread) : Nat := (answers.map Pread.size).sum

@[simp] theorem received_nil : received [] = 0 := rfl

@[simp] theorem received_cons (answer : Pread) (rest : List Pread) :
    received (answer :: rest) = answer.size + received rest := by
  simp [received]

section

variable {file : Nat → UInt8} {buf : Nat} {bytes got : UInt64} {pos : Nat} {mem : Mem}

theorem Answers.received_le {bytes got : Nat} {answers : List Pread}
    (h : Answers bytes got answers) : got + received answers ≤ bytes := by
  induction h with
  | full => simp
  | failed h => simp [Pread.size]; omega
  | endOfFile h => simp [Pread.size]; omega
  | interrupted _ _ ih => simpa [Pread.size] using ih
  | count _ _ _ ih =>
    simp only [received_cons, Pread.size]
    omega

/-- What the call returns when `total` bytes were received. -/
structure Completed (total : Nat) (r : Int) : Prop where
  complete : 2048 ≤ total → r = ((total / 2048 : Nat) : Int).bmod (2 ^ 32)
  none : total < 2048 → r ≤ 0

theorem blockCount_eq (got : UInt64) :
    blockCount got = ((got.toNat / 2048 : Nat) : Int).bmod (2 ^ 32) := by
  have hdiv : (got / 2048).toNat = got.toNat / 2048 := UInt64.toNat_div _ _
  unfold blockCount
  rw [hdiv]

theorem completed_blockCount (got : UInt64) : Completed got.toNat (blockCount got) := by
  refine ⟨fun _ => blockCount_eq got, fun h => ?_⟩
  rw [blockCount_eq, Nat.div_eq_of_lt h]
  decide

theorem completed_stopRead {ret : Int} (hret : ret ≤ 0) (got : UInt64) :
    Completed got.toNat (stopRead ret got) := by
  have hlt : got < 2048 ↔ got.toNat < 2048 := UInt64.lt_iff_toNat_lt
  unfold stopRead
  by_cases h : got < 2048
  · rw [if_pos h]
    exact ⟨fun hge => by have := hlt.mp h; omega, fun _ => hret⟩
  · rw [if_neg h]
    exact completed_blockCount got

/-- One turn: destination and file offset stay in step. -/
theorem defReadLoop_cons (hbytes : bytes.toNat < 2 ^ 62) (hpos : pos < 2 ^ 62)
    (hgot : got.toNat < bytes.toNat) (answer : Pread) (rest : List Pread) :
    defReadLoop file buf bytes pos (answer :: rest) got mem =
      match answer with
      | .interrupted => defReadLoop file buf bytes pos rest got mem
      | .failed => .ok (stopRead (-1) got, mem)
      | .endOfFile => .ok (stopRead 0 got, mem)
      | .count n =>
        defReadLoop file buf bytes pos rest (got + n)
          (mem.blit (buf + got.toNat) n.toNat fun k => file (pos + got.toNat + k)) := by
  have hsum : addSigned64 pos (signed64 got) = .ok ((pos + got.toNat : Nat) : Int) := by
    rw [signed64_of_lt (by omega), addSigned64, if_pos (by omega)]
    rfl
  rw [defReadLoop, if_neg (not_not_intro (UInt64.lt_iff_toNat_lt.mpr hgot)), hsum, Res.ok_bind]
  cases answer <;> rfl

/-- The loop holds what it has received, and returns the count of it. The induction is on the
answers. -/
theorem defReadLoop_spec (hbytes : bytes.toNat < 2 ^ 62) (hpos : pos < 2 ^ 62) {g : Nat}
    {answers : List Pread} (h : Answers bytes.toNat g answers) (hg : got.toNat = g)
    (hold : mem.Holds buf g file pos) :
    ∃ r mem', defReadLoop file buf bytes pos answers got mem = .ok (r, mem') ∧
      Completed (g + received answers) r ∧ mem'.Holds buf (g + received answers) file pos ∧
      ∀ x, x < buf ∨ buf + bytes.toNat ≤ x → mem' x = mem x := by
  induction h generalizing got mem with
  | full =>
    have hge : ¬ got < bytes := by
      rw [UInt64.lt_iff_toNat_lt]
      omega
    refine ⟨_, mem, by rw [defReadLoop, if_neg hge], ?_, by simpa using hold, fun _ _ => rfl⟩
    simpa [hg] using completed_blockCount got
  | failed hlt =>
    subst hg
    rw [defReadLoop_cons hbytes hpos hlt]
    refine ⟨_, mem, rfl, ?_, by simpa [Pread.size] using hold, fun _ _ => rfl⟩
    simpa [Pread.size] using completed_stopRead (show (-1 : Int) ≤ 0 by decide) got
  | endOfFile hlt =>
    subst hg
    rw [defReadLoop_cons hbytes hpos hlt]
    refine ⟨_, mem, rfl, ?_, by simpa [Pread.size] using hold, fun _ _ => rfl⟩
    simpa [Pread.size] using completed_stopRead (le_refl (0 : Int)) got
  | interrupted hlt _ ih =>
    rw [defReadLoop_cons hbytes hpos (by omega)]
    simpa [Pread.size] using ih hg hold
  | @count g n rest hn hle _ ih =>
    have hsum : (got + n).toNat = g + n.toNat := by
      rw [UInt64.toNat_add]
      omega
    rw [defReadLoop_cons hbytes hpos (by omega)]
    -- the bytes go behind those in the buffer, from the offset behind them
    have hnew : (mem.blit (buf + got.toNat) n.toNat fun k => file (pos + got.toNat + k)).Holds
        buf (g + n.toNat) file pos := by
      rw [hg]
      exact (hold.of_eq fun x hx hx' => Mem.blit_out (by omega)).append
        (Mem.holds_blit fun k _ => rfl)
    obtain ⟨r, mem', hrun, hcount, hold', hframe⟩ := ih hsum hnew
    rw [Nat.add_assoc] at hcount hold'
    refine ⟨r, mem', hrun, hcount, hold', fun x hx => ?_⟩
    rw [hframe x hx, Mem.blit_out (by omega)]

theorem toNat_bytes (nblocks : UInt32) :
    (nblocks.toUInt64 * 2048).toNat = 2048 * nblocks.toNat := by
  have hlt := nblocks.toNat_lt
  rw [UInt64.toNat_mul, UInt32.toNat_toUInt64]
  show nblocks.toNat * 2048 % 2 ^ 64 = _
  omega

/-- The call, for any number of blocks. -/
theorem defRead_spec (file : Nat → UInt8) (mem : Mem) (buf : Nat) (lba nblocks : UInt32)
    {answers : List Pread} (h : Answers (2048 * nblocks.toNat) 0 answers) :
    ∃ r mem', defRead file mem buf lba nblocks answers = .ok (r, mem') ∧
      Completed (received answers) r ∧ mem'.Holds buf (received answers) file (2048 * lba.toNat) ∧
      ∀ x, x < buf ∨ buf + 2048 * nblocks.toNat ≤ x → mem' x = mem x := by
  have hlba := lba.toNat_lt
  have hn := nblocks.toNat_lt
  rw [← toNat_bytes] at h
  have hbytes : (nblocks.toUInt64 * 2048).toNat < 2 ^ 62 := by
    rw [toNat_bytes]
    omega
  have hfirst : mem.Holds buf 0 file (2048 * lba.toNat) := Mem.holds_zero
  have hspec := defReadLoop_spec hbytes (by omega) h UInt64.toNat_zero hfirst
  rw [toNat_bytes, Nat.zero_add] at hspec
  have hpos : ((2048 * lba.toNat : Nat) : Int) = lba.toNat * 2048 := by omega
  rw [hpos] at hspec
  exact hspec

end

/-- A count below 2^31 stays what it is as an `int`. -/
theorem Completed.count_eq {total : Nat} {r : Int} (h : Completed total r) (hr : 0 < r)
    (hlt : total / 2048 < 2 ^ 32) : r = (total / 2048 : Nat) := by
  have hge : 2048 ≤ total := by
    by_contra hc
    have := h.none (by omega)
    omega
  have heq := h.complete hge
  rw [Int.bmod_def] at heq
  split at heq
  · omega
  · omega

/-- Whatever the operating system answers, the call returns the number of complete blocks received
before the answers ended, with these in the buffer, or 0 or less when there is none;
`_read_blocks` counts exactly these blocks. -/
theorem defRead_contract (file : Nat → UInt8) (mem : Mem) (buf : Nat) (lba nblocks : UInt32)
    (hn : 1 ≤ nblocks.toNat) (hn' : nblocks.toNat < 2 ^ 31) (answers : List Pread)
    (h : Answers (2048 * nblocks.toNat) 0 answers) :
    ∃ r mem', defRead file mem buf lba nblocks answers = .ok (r, mem') ∧
      r ≤ nblocks.toNat ∧
      (2048 ≤ received answers → r = (received answers / 2048 : Nat)) ∧
      (received answers < 2048 → r ≤ 0) ∧
      (∀ k, k < 2048 * r.toNat → mem' (buf + k) = file (2048 * lba.toNat + k)) ∧
      (∀ x, x < buf ∨ buf + 2048 * nblocks.toNat ≤ x → mem' x = mem x) ∧
      ∀ (σ : Type) (I : BlockInput σ) (flags : Int) (s s' : σ),
        I.read lba nblocks flags s = (⟨r, fun k => mem' (buf + k)⟩, s') →
        I.readBlocks lba nblocks flags s =
          .ok ((UInt32.ofNat (received answers / 2048), some fun k => mem' (buf + k)), s') := by
  obtain ⟨r, mem', hrun, hcount, hold, hframe⟩ := defRead_spec file mem buf lba nblocks h
  have hle := h.received_le
  have hcomplete : 2048 ≤ received answers → r = (received answers / 2048 : Nat) := by
    intro hge
    rw [hcount.complete hge, Int.bmod_eq_of_le (by omega) (by omega)]
  have hr : r.toNat ≤ received answers / 2048 := by
    by_cases hge : 2048 ≤ received answers
    · rw [hcomplete hge]
      exact le_refl _
    · have := hcount.none (by omega)
      omega
  refine ⟨r, mem', hrun, by omega, hcomplete, hcount.none, fun k hk => hold k (by omega), hframe, ?_⟩
  intro σ I flags s s' hread
  have hzero : nblocks ≠ 0 := fun hc => by simp [hc] at hn
  unfold BlockInput.readBlocks
  rw [if_neg (by simp only [hzero, false_or]; omega), hread]
  by_cases hneg : r < 0
  · have hnone : received answers / 2048 = 0 := by
      by_contra hc
      have := hcomplete (by omega)
      omega
    simp [hneg, hnone]
  · have hnat : r.toNat = received answers / 2048 := by
      by_cases hge : 2048 ≤ received answers
      · rw [hcomplete hge]
        rfl
      · have := hcount.none (by omega)
        omega
    simp [hneg, hnat]

/-- Two blocks, interrupted once and delivered in three parts, the last of which the end of the file
cuts off: one block. -/
theorem defRead_contract_short :
    received [.count 1000, .interrupted, .count 2000, .count 500, .endOfFile] = 3500 ∧
      ∃ r mem', defRead (fun x => UInt8.ofNat x) (fun _ => 0) 0 5 2
          [.count 1000, .interrupted, .count 2000, .count 500, .endOfFile] = .ok (r, mem') ∧
        r = 1 ∧ mem' 2047 = UInt8.ofNat (2048 * 5 + 2047) := by
  have hanswers : Answers (2048 * (2 : UInt32).toNat) 0
      [.count 1000, .interrupted, .count 2000, .count 500, .endOfFile] :=
    .count (by decide) (by decide) (.interrupted (by decide) (.count (by decide) (by decide)
      (.count (by decide) (by decide) (.endOfFile (by decide)))))
  obtain ⟨r, mem', hrun, -, hcount, -, hbytes, -⟩ := defRead_contract (fun x => UInt8.ofNat x)
    (fun _ => 0) 0 5 2 (by decide) (by decide) _ hanswers
  have hr : r = 1 := hcount (by decide)
  refine ⟨rfl, r, mem', hrun, hr, ?_⟩
  have := hbytes 2047 (by rw [hr]; decide)
  rwa [Nat.zero_add] at this

/-! ## The input -/

/-- Each read of the input is a `_def_read` of a file of at most 2^32 blocks. -/
def BlockInput.IsDefault {σ : Type} (I : BlockInput σ) (file : Nat → UInt8) : Prop :=
  ∀ lba nblocks flags s, ∃ answers mem buf r mem', Answers (2048 * nblocks.toNat) 0 answers ∧
    2048 * lba.toNat + received answers ≤ 2048 * 2 ^ 32 ∧
    defRead file mem buf lba nblocks answers = .ok (r, mem') ∧
    (I.read lba nblocks flags s).1 = ⟨r, fun k => mem' (buf + k)⟩

/-- The default input serves the content of its file. -/
theorem isDefault_serves {σ : Type} {I : BlockInput σ} {file : Nat → UInt8} (hI : I.IsDefault file) :
    I.Serves fun b o => file (2048 * b.toNat + o) := by
  intro lba nblocks flags s k hk
  obtain ⟨answers, mem, buf, r, mem', hanswers, hsize, hrun, hread⟩ := hI lba nblocks flags s
  obtain ⟨r', mem'', hrun', hcount, hold, -⟩ := defRead_spec file mem buf lba nblocks hanswers
  rw [hrun] at hrun'
  cases hrun'
  rw [hread] at hk ⊢
  simp only at hk ⊢
  have hle := hanswers.received_le
  have hn := nblocks.toNat_lt
  have hr := hcount.count_eq (by omega) (by omega)
  have hlba : (lba + UInt32.ofNat k).toNat = lba.toNat + k := by
    rw [UInt32.toNat_add, UInt32.toNat_ofNat']
    omega
  refine ⟨by omega, fun o ho => ?_⟩
  rw [hold _ (by omega), hlba]
  exact congrArg file (by omega)

end UdfRead
