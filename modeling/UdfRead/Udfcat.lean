import UdfRead.FailedChain
import UdfRead.OpenImage

/-!
# UdfRead.Udfcat

`udfcat` of `examples/`, the program that writes a file of a volume to the standard output. It opens
the volume and the file, and reads one block after the other until a read gives nothing. What it
writes is the content of the file up to the first block that the image has lost (`udfcat_iff`).
-/

namespace UdfRead

open CModel

/-- What `_cat` leaves: the bytes on the standard output, the offset in its message about a failed
read, and the two numbers of its last message. -/
structure CatOutput where
  written : Bytes
  failedAt : Option Int
  got : Int
  size : Int
  deriving DecidableEq, Repr

section

variable {σ : Type}

/-- The loop of `_cat`, and the messages behind it. -/
def catLoop (I : BlockInput σ) (fuel : Nat) :
    (turns : Nat) → UdfFile → (buf : Mem) → (written : Bytes) → (got : Int) → Proc σ CatOutput
  | 0, _, _, _, _ => Proc.ofRes (.error .outOfFuel)
  | turns + 1, fp, buf, written, got => do
    let (result, fp, buf) ← udfreadFileRead I fuel fp buf 0 2048
    if result > 0 then
      let got ← Proc.ofRes (addSigned64 got result)
      catLoop I fuel turns fp buf (written ++ (List.range result.toNat).map buf) got
    else
      return {
        written, got
        failedAt := if result < 0 then some (udfreadFileTell fp) else none
        size := udfreadFileSize fp }

/-- `main` of udfcat: `none` when it returns -1 with nothing written. The first content of its
buffer is indeterminate. -/
def udfcat (I : BlockInput σ) (fuel turns : Nat) (path : Bytes) : Proc σ (Option CatOutput) := do
  let (result, udf) ← udfreadOpenInput I fuel (.init partitionFirst)
  if result < 0 then return none
  match ← udfreadFileOpen I fuel udf path with
  | (none, _) => return none
  | (some (_, fp), _) => return some (← catLoop I fuel turns fp (fun _ => 0) [] 0)

end

/-! ## What has to be written -/

/-- The content of the blocks; lost ones are never served. -/
def mediaOf (image : Image) : Media := fun lba => (image lba).getD fun _ => 0

/-- Block `b` of the file is allocated on a block that the image has lost. -/
def LostBlock (image : Image) (f : UdfFile) (b : Nat) : Prop :=
  udfreadFileLba f (.ofNat b) ≠ 0 ∧ image (udfreadFileLba f (.ofNat b)) = none

/-- The first `n` bytes of the file are those in front of its first lost block. -/
structure UpToLost (image : Image) (f : UdfFile) (n : Nat) : Prop where
  le : n ≤ f.fe.length.toNat
  kept : ∀ b, 2048 * b < n → ¬ LostBlock image f b
  stop : n = f.fe.length.toNat ∨ ∃ b, n = 2048 * b ∧ LostBlock image f b

/-- What `_cat` does with a file. -/
def Cats (image : Image) (f : UdfFile) (c : CatOutput) : Prop :=
  ∃ n, UpToLost image f n ∧ c = {
    written := (List.range n).map (logicalByte (mediaOf image) f)
    failedAt := if n < f.fe.length.toNat then some n else none
    got := n
    size := signed64 f.fe.length }

section

variable {image : Image} {nblocks : Option UInt32} {f g : UdfFile} {part : UdfPartitions}
  {fe : FileEntry} {fuel turns : Nat} {buf : Mem}

theorem UpToLost.unique {n m : Nat} (h : UpToLost image f n) (h' : UpToLost image f m) : n = m := by
  have hle : ∀ {n m}, UpToLost image f n → UpToLost image f m → n ≤ m := by
    intro n m h h'
    rcases h'.stop with hm | ⟨b, hm, hlost⟩
    · exact hm ▸ h.le
    · by_contra hc
      exact h.kept b (by omega) hlost
  exact le_antisymm (hle h h') (hle h' h)

theorem Cats.unique {c c' : CatOutput} (h : Cats image f c) (h' : Cats image f c') : c = c' := by
  obtain ⟨n, hn, rfl⟩ := h
  obtain ⟨m, hm, rfl⟩ := h'
  rw [hn.unique hm]

theorem image_serves (image : Image) (nblocks : Option UInt32) :
    (BlockInput.ofImage image nblocks).Serves (mediaOf image) := by
  intro lba n flags s k hk
  have hl := lba.toNat_lt
  simp only [BlockInput.ofImage] at hk ⊢
  cases hi : image lba with
  | none =>
    simp only [hi] at hk
    omega
  | some data =>
    by_cases hn : n = 0
    · simp only [hi, hn, if_true] at hk
      omega
    · simp only [hi, hn, if_false] at hk ⊢
      obtain rfl : k = 0 := by omega
      exact ⟨by omega, fun o _ => by simp [mediaOf, hi]⟩

theorem lostBlock_same (h : f.Same g) (b : Nat) : LostBlock image f b ↔ LostBlock image g b := by
  unfold LostBlock udfreadFileLba
  rw [contentInline_same h, fileLba_same h]

/-- A request for one block of the file: it fails where the block is lost. -/
theorem readBlocks_one (hf : f.contentInline = false) (hlen : f.InRange) {b : Nat}
    (hb : 2048 * b < f.fe.length.toNat) (image : Image) (nblocks : Option UInt32) (buf : Mem) :
    ∃ n mem, udfreadReadBlocks (.ofImage image nblocks) f buf 0 (.ofNat b) 1 0 () =
        .ok ((n, mem), ()) ∧
      (LostBlock image f b ∧ n = 0 ∨ ¬ LostBlock image f b ∧ n = 1) := by
  have hlba : udfreadFileLba f (.ofNat b) = (fileLba f (.ofNat b)).1 := by
    rw [udfreadFileLba, hf]
    rfl
  have hdone : ∀ mem : Mem, readBlocksLoop (.ofImage image nblocks) f 0 (.ofNat b) 1 0 0 1 mem () =
      .ok ((1, mem), ()) := fun _ => rfl
  rw [udfreadReadBlocks_eq_loop hf, show (1 : UInt32).toNat = 0 + 1 from rfl, readBlocksLoop,
    if_neg (not_not_intro (by decide)), UInt32.add_zero]
  simp only
  by_cases hmap : (fileLba f (.ofNat b)).1 = 0
  · -- not allocated: zeros
    have hlt : UInt32.ofNat b < .ofNat ((f.fe.length.toNat + 2047) / 2048) := by
      unfold UdfFile.InRange at hlen
      rw [UInt32.lt_iff_toNat_lt, UInt32.toNat_ofNat', UInt32.toNat_ofNat',
        Nat.mod_eq_of_lt (by omega), Nat.mod_eq_of_lt (by omega)]
      omega
    rw [if_pos hmap, Proc.ofRes_bind (fileBlocks_eq hlen), if_pos hlt]
    exact ⟨1, _, hdone _, .inr ⟨fun h => h.1 (hlba.trans hmap), rfl⟩⟩
  · have hone : min (fileLba f (.ofNat b)).2 (1 - 0) = 1 := by
      have hpos := fileLba_pos hmap
      apply UInt32.toNat_inj.mp
      rw [UInt32.toNat_min]
      simp only [UInt32.sub_zero, UInt32.toNat_one]
      omega
    rw [if_neg hmap, hone]
    cases hi : image (fileLba f (.ofNat b)).1 with
    | none =>
      have hread : (BlockInput.ofImage image nblocks).readBlocks (fileLba f (.ofNat b)).1 1 0 () =
          .ok ((0, some fun _ => 0), ()) := by
        simp [BlockInput.readBlocks, BlockInput.ofImage, hi]
      rw [Proc.bind_of_ok hread]
      refine ⟨0, _, rfl, .inl ⟨⟨?_, ?_⟩, rfl⟩⟩
      · rwa [hlba]
      · rwa [hlba]
    | some data =>
      have hread : (BlockInput.ofImage image nblocks).readBlocks (fileLba f (.ofNat b)).1 1 0 () =
          .ok ((1, some data), ()) := by
        simp [BlockInput.readBlocks, BlockInput.ofImage, hi]
      rw [Proc.bind_of_ok hread]
      refine ⟨1, _, hdone _, .inr ⟨fun h => ?_, rfl⟩⟩
      have hnone := h.2
      rw [hlba, hi] at hnone
      cases hnone

/-- A chunk from the start of a block: it fails where the block is lost. -/
theorem readChunk_one (hf : f.contentInline = false) (hlen : f.InRange) {b : Nat}
    (hpos : f.pos.toNat = 2048 * b) {bytes : UInt64} (hb : 0 < bytes.toNat)
    (hb' : bytes.toNat ≤ 2048) (hend : f.pos.toNat + bytes.toNat ≤ f.fe.length.toNat)
    (image : Image) (nblocks : Option UInt32) (buf : Mem) :
    ∃ r f' buf', readChunk (.ofImage image nblocks) f buf 0 bytes () = .ok ((r, f', buf'), ()) ∧
      (LostBlock image f b ∧ r = -1 ∨ ¬ LostBlock image f b ∧ r = bytes.toNat) := by
  obtain ⟨hfb, hfb', hmod⟩ := pos_split hlen (by omega)
  have hz : f.pos % 2048 = 0 := UInt64.toNat_inj.mp (by rw [hmod]; simp; omega)
  have hblock : (f.pos / 2048).toUInt32 = .ofNat b := by
    rw [← UInt32.ofNat_toNat (x := (f.pos / 2048).toUInt32), hfb, hpos]
    congr
    omega
  rw [readChunk, if_neg (by simp [hz]), hblock]
  by_cases hfull : bytes = 2048
  · subst hfull
    obtain ⟨n, mem, hrun, hlost⟩ := readBlocks_one hf hlen (show 2048 * b < f.fe.length.toNat by
      omega) image nblocks buf
    rw [if_pos (UInt64.le_refl _), show ((2048 : UInt64) / 2048).toUInt32 = 1 by decide,
      Proc.bind_of_ok hrun]
    rcases hlost with ⟨hlost, rfl⟩ | ⟨hkept, rfl⟩
    · exact ⟨-1, f, mem, rfl, .inl ⟨hlost, rfl⟩⟩
    · exact ⟨_, _, mem, rfl, .inr ⟨hkept, rfl⟩⟩
  · have hshort : ¬ 2048 ≤ bytes := by
      rw [UInt64.le_iff_toNat_le]
      show ¬ 2048 ≤ bytes.toNat
      have hne : bytes.toNat ≠ (2048 : UInt64).toNat := fun h => hfull (UInt64.toNat_inj.mp h)
      have h2048 : (2048 : UInt64).toNat = 2048 := rfl
      omega
    obtain ⟨n, mem, hrun, hlost⟩ := readBlocks_one hf hlen (show 2048 * b < f.fe.length.toNat by
      omega) image nblocks f.tmp
    rw [if_neg hshort]
    rcases hlost with ⟨hlost, rfl⟩ | ⟨hkept, rfl⟩
    · have htmp : readTmp (.ofImage image nblocks) f (.ofNat b) () =
          .ok ((false, { f with block := some mem }), ()) := by
        rw [readTmp, Proc.bind_of_ok hrun]
        rfl
      rw [Proc.bind_of_ok htmp]
      exact ⟨-1, _, buf, rfl, .inl ⟨hlost, rfl⟩⟩
    · have htmp : readTmp (.ofImage image nblocks) f (.ofNat b) () =
          .ok ((true, { f with block := some mem, blockValid := true }), ()) := by
        rw [readTmp, Proc.bind_of_ok hrun]
        rfl
      rw [Proc.bind_of_ok htmp]
      exact ⟨_, _, _, rfl, .inr ⟨hkept, rfl⟩⟩

theorem readInline_result {content : Bytes} {bytes : UInt64} {r : Int} {f' : UdfFile} {buf' : Mem}
    (h : readInline f content buf 0 bytes = .ok (r, f', buf')) : r = bytes.toNat := by
  obtain ⟨pad, hpad⟩ : ∃ pad : UInt64, (if f.pos + bytes > UInt64.ofNat content.length then
      if f.pos > UInt64.ofNat content.length then bytes
      else f.pos + bytes - UInt64.ofNat content.length else 0) = pad := ⟨_, rfl⟩
  unfold readInline at h
  simp only [hpad] at h
  split at h
  · obtain ⟨data, -, h⟩ := Res.bind_eq_ok.mp h
    cases h
    rfl
  · cases h
    rfl

/-- One read of `_cat`. -/
theorem fileRead_turn (hlen : f.InRange) (hsized : f.fe.Sized) (hc : Cached (mediaOf image) f)
    {b : Nat} (hpos : f.pos.toNat = 2048 * b) (hlt : 2048 * b < f.fe.length.toNat)
    (hfuel : 2048 ≤ fuel) (nblocks : Option UInt32) (buf : Mem) :
    ∃ r f' buf', udfreadFileRead (.ofImage image nblocks) fuel f buf 0 2048 () =
        .ok ((r, f', buf'), ()) ∧
      Delivered (mediaOf image) f buf 0 0 (rest f 2048) r f' buf' ∧
      (LostBlock image f b ∧ r = -1 ∨ ¬ LostBlock image f b ∧ r = rest f 2048) := by
  have hspec := udfreadFileRead_spec (image_serves image nblocks) hlen hsized hc
    (show (2048 : UInt64).toNat < 2 ^ 32 by decide) fuel buf 0 ()
  have hnot : ¬ f.pos ≥ f.fe.length := by
    rw [ge_iff_le, UInt64.le_iff_toNat_le]
    omega
  have hlim : (limitBytes f 2048).toNat = rest f 2048 :=
    limitBytes_toNat hlen (by decide) (by omega)
  have hrest : 0 < rest f 2048 ∧ rest f 2048 ≤ 2048 ∧
      f.pos.toNat + rest f 2048 ≤ f.fe.length.toNat := by
    unfold rest
    omega
  cases hrun : udfreadFileRead (.ofImage image nblocks) fuel f buf 0 2048 () with
  | error t =>
    rw [hrun] at hspec
    exact absurd hspec (by show ¬ fuel < 2048; omega)
  | ok x =>
    obtain ⟨⟨r, f', buf'⟩, ⟨⟩⟩ := x
    rw [hrun] at hspec
    have hdel : Delivered (mediaOf image) f buf 0 0 (rest f 2048) r f' buf' := hspec
    refine ⟨r, f', buf', rfl, hdel, ?_⟩
    rw [udfreadFileRead, if_neg (by decide), if_neg hnot] at hrun
    cases hu : f.fe.u with
    | data content =>
      have hinline : f.contentInline = true := by
        unfold UdfFile.contentInline
        rw [hu]
      rw [hu] at hrun
      obtain ⟨hread, -⟩ := Proc.ofRes_eq_ok.mp hrun
      refine .inr ⟨fun h => h.1 ?_, by rw [readInline_result hread, hlim]⟩
      rw [udfreadFileLba, hinline]
      rfl
    | ads t ad =>
      have hf : f.contentInline = false := by
        unfold UdfFile.contentInline
        rw [hu]
      rw [hu] at hrun
      obtain ⟨k, rfl⟩ := Nat.exists_eq_add_of_le' (show 1 ≤ fuel by omega)
      have hmore : limitBytes f 2048 > 0 := UInt64.lt_iff_toNat_lt.mpr (by rw [hlim]; exact hrest.1)
      obtain ⟨r₁, f₁, buf₁, hchunk, hlost⟩ := readChunk_one
        (f := { f with block := some f.tmp }) hf hlen hpos (by rw [hlim]; omega)
        (by rw [hlim]; omega) (by rw [hlim]; exact hrest.2.2) image nblocks buf
      simp only at hrun
      rw [readChunks, if_neg (not_not_intro hmore), Proc.bind_of_ok hchunk] at hrun
      simp only at hrun
      rcases hlost with ⟨hlost, rfl⟩ | ⟨hkept, rfl⟩
      · rw [if_pos (by decide), if_neg (by decide)] at hrun
        cases hrun
        exact .inl ⟨hlost, rfl⟩
      · have hdone : limitBytes f 2048 - UInt64.ofNat (limitBytes f 2048).toNat = 0 := by
          rw [UInt64.ofNat_toNat, UInt64.sub_self]
        rw [if_neg (by omega), Int.toNat_natCast, hdone] at hrun
        cases k with
        | zero => omega
        | succ k =>
          rw [readChunks, if_pos (by decide)] at hrun
          cases hrun
          exact .inr ⟨hkept, by rw [Nat.zero_add, hlim]⟩

/-! ## The loop -/

/-- What `_cat` does from a position on up to which it has written everything. -/
theorem catLoop_cats (hlen : g.InRange) (hsized : g.fe.Sized) (hfuel : 2048 ≤ fuel)
    (nblocks : Option UInt32) (hsame : f.Same g) (hc : Cached (mediaOf image) f) {n : Nat}
    (hn : f.pos.toNat = n) (hle : n ≤ g.fe.length.toNat)
    (hkept : ∀ b, 2048 * b < n → ¬ LostBlock image g b)
    (hpos : n = g.fe.length.toNat ∨ n % 2048 = 0) (buf : Mem) :
    ∃ turns c, catLoop (.ofImage image nblocks) fuel turns f buf
        ((List.range n).map (logicalByte (mediaOf image) g)) n () = .ok (c, ()) ∧
      Cats image g c := by
  obtain ⟨left, hleft⟩ : ∃ left, g.fe.length.toNat - n = left := ⟨_, rfl⟩
  induction left using Nat.strong_induction_on generalizing f n buf with
  | _ left ih =>
    have hfe : f.fe = g.fe := hsame.2
    by_cases hend : n = g.fe.length.toNat
    · -- nothing is left to read
      have hread : udfreadFileRead (.ofImage image nblocks) fuel f buf 0 2048 () =
          .ok ((0, f, buf), ()) := by
        rw [udfreadFileRead, if_neg (by decide), if_pos (by
          rw [ge_iff_le, UInt64.le_iff_toNat_le, hfe]
          omega)]
        rfl
      refine ⟨1, _, ?_, n, ⟨hle, hkept, .inl hend⟩, rfl⟩
      rw [catLoop, Proc.bind_of_ok hread, if_neg (show ¬ n < g.fe.length.toNat by omega)]
      simp only [udfreadFileSize, hfe]
      rfl
    · obtain ⟨b, hb⟩ : ∃ b, n = 2048 * b := ⟨n / 2048, by omega⟩
      have hflen : f.InRange := by
        unfold UdfFile.InRange
        rw [hfe]
        exact hlen
      have hmax := hlen
      unfold UdfFile.InRange at hmax
      obtain ⟨r, f', buf', hread, hdel, hlost⟩ := fileRead_turn hflen (by rw [hfe]; exact hsized) hc
        (hn.trans hb) (by rw [hfe]; omega) hfuel nblocks buf
      have hfe' : f'.fe = g.fe := hdel.same.2.trans hfe
      rcases hlost with ⟨hlost, rfl⟩ | ⟨hkeep, rfl⟩
      · -- the block is lost
        have hpos' : f'.pos = f.pos := by
          rcases hdel.result with ⟨-, -, h⟩ | ⟨count, h, -⟩
          · exact h
          · omega
        have htell : udfreadFileTell f' = n := by
          rw [udfreadFileTell, hpos', signed64_of_lt (by omega), hn]
        refine ⟨1, _, ?_, n, ⟨hle, hkept, .inr ⟨b, hb, (lostBlock_same hsame b).mp hlost⟩⟩, rfl⟩
        rw [catLoop, Proc.bind_of_ok hread, if_pos (show n < g.fe.length.toNat by omega)]
        simp only [udfreadFileSize, hfe', htell]
        rfl
      · obtain ⟨count, hcount, hpos', hold⟩ : ∃ count : Nat, count = rest f 2048 ∧
            f'.pos.toNat = f.pos.toNat + count ∧
            buf'.Holds 0 count (logicalByte (mediaOf image) f) f.pos.toNat := by
          rcases hdel.result with ⟨-, h, -⟩ | ⟨count, h, -, -, hpos', hold⟩
          · omega
          · exact ⟨count, by omega, hpos', hold⟩
        have hrest : rest f 2048 = min 2048 (g.fe.length.toNat - n) := by rw [rest, hfe, hn]
        have hwritten : (List.range n).map (logicalByte (mediaOf image) g) ++
            (List.range count).map buf' =
            (List.range (n + count)).map (logicalByte (mediaOf image) g) := by
          rw [List.range_add, List.map_append, List.map_map]
          congr 1
          refine List.map_congr_left fun k hk => ?_
          have hbyte := hold k (List.mem_range.mp hk)
          rw [Nat.zero_add, hn, logicalByte_same hsame] at hbyte
          exact hbyte
        have hgot : addSigned64 (n : Int) (count : Nat) = .ok ((n + count : Nat) : Int) := by
          rw [addSigned64, if_pos (by omega)]
          rfl
        obtain ⟨turns, c, hrun, hcats⟩ := ih (g.fe.length.toNat - (n + count)) (by omega)
          (hdel.same.trans hsame) hdel.cached (by rw [hpos', hn]) (by omega) (fun b' hb' => by
            by_cases heq : b' = b
            · rw [heq]
              exact fun h => hkeep ((lostBlock_same hsame b).mpr h)
            · exact hkept b' (by omega)) (by omega) buf' rfl
        refine ⟨turns + 1, c, ?_, hcats⟩
        rw [catLoop, Proc.bind_of_ok hread, ← hcount]
        simp only
        rw [if_pos (show (count : Int) > 0 by omega), Proc.ofRes_bind hgot, Int.toNat_natCast,
          hwritten]
        exact hrun

end

/-! ## The lookup -/

/-- Directory `dir` of the heap has the listing, and nothing of it is cached. -/
def Udfread.Leaf (udf : Udfread) (dir : Nat) (entries : List UdfFileIdentifier) : Prop :=
  udf.dirs[dir]? = some { entries, subdirs := none }

section

variable {image : Image} {nblocks : Option UInt32} {fuel fuel' turns turns' : Nat}
  {part : UdfPartitions} {udf udf' : Udfread} {dir index : Nat} {toks : List Bytes} {token : Bytes}
  {entries sub : List UdfFileIdentifier} {fid : UdfFileIdentifier} {fid₀ : Option UdfFileIdentifier}

theorem scanDir_of_first (h : firstNamed entries token = some fid) :
    ∃ index, scanDir entries token = some index ∧ entries[index]? = some fid := by
  rw [firstNamed, List.find?_eq_bind_findIdx?_getElem?] at h
  unfold scanDir
  cases hscan : entries.findIdx? fun fid => cString token == cString fid.filename with
  | none =>
    rw [hscan] at h
    cases h
  | some index =>
    rw [hscan] at h
    exact ⟨index, rfl, h⟩

theorem leaf_slots {d : UdfDir} (hleaf : udf.Leaf dir entries) (hd : udf.dirs[dir]? = some d)
    (hindex : index < entries.length) : d.entries = entries ∧ d.slots[index]? = some none := by
  rw [hleaf] at hd
  cases hd
  refine ⟨rfl, ?_⟩
  rw [UdfDir.slots, Option.getD_none, List.getElem?_replicate, if_pos hindex]

theorem setSlots_leaf (udf : Udfread) (dir : Nat) (d : UdfDir) (slots : List (Option Nat))
    (sub : List UdfFileIdentifier) :
    (udf.setSlots dir d slots [{ entries := sub, subdirs := none }]).Leaf udf.dirs.length sub := by
  unfold Udfread.Leaf Udfread.setSlots
  simp only
  rw [List.getElem?_append_right (by simp), List.length_set, Nat.sub_self]
  rfl

/-- From a directory with nothing cached, the lookup of a path that finds an identifier is one of
the image. -/
theorem selects_of_findFileLoop {k : Option Nat} (hleaf : udf.Leaf dir entries) (htoks : toks ≠ [])
    (hrun : findFileLoop (.ofImage image nblocks) fuel toks udf dir fid₀ () =
      .ok ((some (k, some fid), udf'), ())) :
    Selects image udf.part entries toks fid ∧ udf'.part = udf.part := by
  induction toks generalizing udf dir entries fid₀ with
  | nil => exact absurd rfl htoks
  | cons token rest ih =>
    obtain ⟨d, hd, hturn⟩ := findFileLoop_cases hrun
    have hde : d.entries = entries := by
      rw [hleaf] at hd
      cases hd
      rfl
    cases hturn with
    | file hscan hfid _ hrest =>
      subst hrest
      exact ⟨.last (hde ▸ scanDir_first hscan hfid), rfl⟩
    | @down index sub dirFid udf₁ _ s₁ _ _ hscan hfid hisdir hcache hrun =>
      have hfirst : firstNamed entries token = some dirFid := hde ▸ scanDir_first hscan hfid
      obtain ⟨d', fid', hd', hfid', hcall⟩ := cacheSubdir_cases hcache
      obtain rfl : d = d' := Option.some.inj (hd.symm.trans hd')
      obtain rfl : dirFid = fid' := Option.some.inj (hfid.symm.trans hfid')
      have hslot := (leaf_slots hleaf hd (by
        rw [← hde]
        exact (List.getElem?_eq_some_iff.mp hfid).1)).2
      cases hcall with
      | cached _ hslot' =>
        rw [hslot] at hslot'
        cases hslot'
      | @read result sub _ _ _ hread hok =>
        rw [udfReadDir_image] at hread
        have hlist : Lists image udf.part dirFid.icb sub := ⟨fuel, result, hread, not_lt.mp hok⟩
        cases rest with
        | nil =>
          cases hrun
          exact ⟨.last hfirst, rfl⟩
        | cons token' rest =>
          obtain ⟨hsel, hpart⟩ := ih (setSlots_leaf _ _ _ _ _) (by simp) hrun
          exact ⟨.cons hfirst hisdir hlist hsel, hpart⟩

theorem findFileLoop_within {σ : Type} {I : BlockInput σ} (hle : fuel ≤ fuel') (toks : List Bytes)
    (udf : Udfread) (dir : Nat) (fid₀ : Option UdfFileIdentifier) :
    Proc.Within (findFileLoop I fuel toks udf dir fid₀)
      (findFileLoop I fuel' toks udf dir fid₀) := by
  induction toks generalizing udf dir fid₀ with
  | nil => exact Proc.within_refl _
  | cons token rest ih =>
    rw [findFileLoop, findFileLoop]
    cases udf.dirs[dir]? with
    | none => exact Proc.within_refl _
    | some d =>
      simp only
      cases scanDir d.entries token with
      | none => exact Proc.within_refl _
      | some index =>
        simp only
        cases d.entries[index]? with
        | none => exact Proc.within_refl _
        | some fid =>
          simp only
          split
          · refine (cacheSubdir_within hle udf dir index).bind fun x => ?_
            obtain ⟨_ | sub, udf⟩ := x
            · exact Proc.within_refl _
            · exact ih udf sub (some fid)
          · exact Proc.within_refl _

/-- A sub-directory of the image is read and cached. -/
theorem cacheSubdir_of_lists {d : UdfDir} (hd : udf.dirs[dir]? = some d)
    (hfid : d.entries[index]? = some fid) (hisdir : fid.IsDir)
    (hslot : d.slots[index]? = some none) (hlist : Lists image udf.part fid.icb sub)
    (nblocks : Option UInt32) :
    ∃ fuel, cacheSubdir (.ofImage image nblocks) fuel udf dir index () =
      .ok ((some udf.dirs.length, udf.setSlots dir d (d.slots.set index (some udf.dirs.length))
        [{ entries := sub, subdirs := none }]), ()) := by
  obtain ⟨fuel, r, hread, hr⟩ := hlist
  have hread' : udfReadDir (.ofImage image nblocks) fuel udf.part fid.icb [] () =
      .ok ((r, sub), ()) := by
    rw [udfReadDir_image]
    exact hread
  refine ⟨fuel, ?_⟩
  unfold cacheSubdir
  simp only [hd, hfid]
  rw [if_neg hisdir]
  simp only [hslot]
  rw [Proc.bind_of_ok hread']
  simp only
  rw [if_neg (not_lt.mpr hr)]
  simp only [List.length_set, List.set_set]
  rfl

/-- A file of the image is found. -/
theorem findFileLoop_of_selects (h : Selects image part entries toks fid) (hfile : ¬ fid.IsDir)
    (nblocks : Option UInt32) (hpart : udf.part = part) (hleaf : udf.Leaf dir entries)
    (fid₀ : Option UdfFileIdentifier) :
    ∃ fuel k udf', findFileLoop (.ofImage image nblocks) fuel toks udf dir fid₀ () =
      .ok ((some (k, some fid), udf'), ()) := by
  induction h generalizing udf dir fid₀ with
  | @last entries name fid hfirst =>
    have hd : udf.dirs[dir]? = some { entries, subdirs := none } := hleaf
    obtain ⟨index, hscan, hfid⟩ := scanDir_of_first hfirst
    refine ⟨0, none, udf, ?_⟩
    rw [findFileLoop]
    have hplain : ¬ fid.characteristic &&& charFlagDir ≠ 0 := hfile
    simp only [hd, hscan, hfid]
    rw [if_neg hplain, if_neg (not_not_intro rfl)]
    rfl
  | @cons entries sub name names dirFid fid hfirst hisdir hlist hsel ih =>
    obtain ⟨index, hscan, hfid⟩ := scanDir_of_first hfirst
    let d : UdfDir := { entries, subdirs := none }
    have hd : udf.dirs[dir]? = some d := hleaf
    let udf₁ := udf.setSlots dir d (d.slots.set index (some udf.dirs.length))
      [{ entries := sub, subdirs := none }]
    rw [← hpart] at hlist
    have hslot := (leaf_slots hleaf hd (List.getElem?_eq_some_iff.mp hfid).1).2
    obtain ⟨n, hcache⟩ : ∃ n, cacheSubdir (.ofImage image nblocks) n udf dir index () =
        .ok ((some udf.dirs.length, udf₁), ()) :=
      cacheSubdir_of_lists hd hfid hisdir hslot hlist nblocks
    have hleaf₁ : udf₁.Leaf udf.dirs.length sub := setSlots_leaf _ _ _ _ _
    have hpart₁ : udf₁.part = part := hpart
    obtain ⟨n', k, udf', hrun⟩ := ih hfile hpart₁ hleaf₁ (some dirFid)
    refine ⟨max n n', k, udf', ?_⟩
    have hscan' : scanDir d.entries name = some index := hscan
    have hfid' : d.entries[index]? = some dirFid := hfid
    rw [findFileLoop]
    have hbit : dirFid.characteristic &&& charFlagDir ≠ 0 := hisdir
    simp only [hd, hscan', hfid']
    rw [if_pos hbit,
      Proc.bind_of_ok (cacheSubdir_within (Nat.le_max_left n n') udf dir index _ _ hcache)]
    exact findFileLoop_within (Nat.le_max_right n n') _ _ _ _ _ _ hrun

end

/-! ## The program -/

/-- The file at the path of the volume on an image. -/
def CatFile (image : Image) (nblocks : Option UInt32) (path : Bytes) (part : UdfPartitions)
    (fe : FileEntry) : Prop :=
  ∃ udf fid fuel, Mounts image nblocks partitionFirst udf ∧ udf.part = part ∧
    Selects image part udf.rootEntries (tokens path) fid ∧ ¬ fid.IsDir ∧
    udfReadFileEntry (faultFree image) fuel part fid.icb () = .ok (some fe, ())

section

variable {image : Image} {nblocks : Option UInt32} {fuel fuel' turns turns' : Nat}
  {part : UdfPartitions} {udf : Udfread} {path : Bytes} {fe : FileEntry} {c : CatOutput}

theorem Mounts.leaf {select : Int} (h : Mounts image nblocks select udf) :
    udf.isOpen = true ∧ udf.Leaf 0 udf.rootEntries := by
  obtain ⟨-⟩ := h
  exact ⟨rfl, rfl⟩

theorem udfReadFileEntry_image {icb : LongAd} :
    udfReadFileEntry (.ofImage image nblocks) fuel part icb =
      udfReadFileEntry (faultFree image) fuel part icb := by
  unfold udfReadFileEntry readFileEntryChain readEntryBlock
  simp only [readMetadata_image, readExtents_image]

theorem udfReadFileEntry_sized {icb : LongAd}
    (h : udfReadFileEntry (faultFree image) fuel part icb () = .ok (some fe, ())) : fe.Sized := by
  obtain ⟨c, _, hchain, h⟩ := Proc.bind_eq_ok.mp h
  obtain ⟨m, s₂, hblock, hchain⟩ := Proc.bind_eq_ok.mp hchain
  obtain ⟨m', _, hret, hsized⟩ := readEntryBlock_returns (faultFree image) part icb ()
  rw [hblock] at hret
  cases hret
  cases m with
  | none =>
    cases hchain
    cases h
  | some fe₀ =>
    obtain ⟨⟨g, e⟩, _, hext, hchain⟩ := Proc.bind_eq_ok.mp hchain
    cases hchain
    cases h
    exact readExtents_sized (hsized fe₀ rfl) hext

/-! ### More fuel -/

theorem readChunks_within {σ : Type} {I : BlockInput σ} (hle : fuel ≤ fuel') (buf : Nat)
    (f : UdfFile) (mem : Mem) (off : Nat) (bytes : UInt64) :
    Proc.Within (readChunks I buf fuel f mem off bytes)
      (readChunks I buf fuel' f mem off bytes) := by
  induction fuel generalizing fuel' f mem off bytes with
  | zero =>
    rw [readChunks]
    split
    · exact Proc.within_error _ _
    · rename_i hdone
      cases fuel' with
      | zero =>
        rw [readChunks, if_neg hdone]
        exact Proc.within_refl _
      | succ k =>
        rw [readChunks, if_pos hdone]
        exact Proc.within_refl _
  | succ fuel ih =>
    obtain ⟨k, rfl⟩ := Nat.exists_eq_add_of_le' hle
    rw [show k + (fuel + 1) = (k + fuel) + 1 from rfl, readChunks, readChunks]
    split
    · exact Proc.within_refl _
    · refine Proc.within_bind _ fun x => ?_
      obtain ⟨r, f, mem⟩ := x
      simp only
      split
      · exact Proc.within_refl _
      · exact ih (Nat.le_add_left fuel k) f mem _ _

theorem udfreadFileRead_within {σ : Type} {I : BlockInput σ} (hle : fuel ≤ fuel') (f : UdfFile)
    (mem : Mem) (buf : Nat) (bytes : UInt64) :
    Proc.Within (udfreadFileRead I fuel f mem buf bytes)
      (udfreadFileRead I fuel' f mem buf bytes) := by
  unfold udfreadFileRead
  split
  · exact Proc.within_refl _
  · split
    · exact Proc.within_refl _
    · split
      · exact Proc.within_refl _
      · exact readChunks_within hle _ _ _ _ _

theorem catLoop_within {σ : Type} {I : BlockInput σ} (hle : fuel ≤ fuel') (hturns : turns ≤ turns')
    (f : UdfFile) (buf : Mem) (written : Bytes) (got : Int) :
    Proc.Within (catLoop I fuel turns f buf written got)
      (catLoop I fuel' turns' f buf written got) := by
  induction turns generalizing turns' f buf written got with
  | zero => exact Proc.within_error _ _
  | succ turns ih =>
    obtain ⟨k, rfl⟩ := Nat.exists_eq_add_of_le' hturns
    rw [show k + (turns + 1) = (k + turns) + 1 from rfl, catLoop, catLoop]
    refine (udfreadFileRead_within hle f buf 0 2048).bind fun x => ?_
    obtain ⟨r, f, buf⟩ := x
    simp only
    split
    · exact Proc.within_bind _ fun got => ih (Nat.le_add_left turns k) f buf _ got
    · exact Proc.within_refl _

theorem udfreadFileOpen_within {σ : Type} {I : BlockInput σ} (hle : fuel ≤ fuel') (udf : Udfread)
    (path : Bytes) :
    Proc.Within (udfreadFileOpen I fuel udf path) (udfreadFileOpen I fuel' udf path) := by
  unfold udfreadFileOpen
  split
  · exact Proc.within_refl _
  · refine (findFileLoop_within hle (tokens path) udf 0 none).bind fun x => ?_
    obtain ⟨_ | ⟨dir, _ | fi⟩, udf⟩ := x
    · exact Proc.within_refl _
    · exact Proc.within_refl _
    · exact (fileOpen_within hle udf fi).bind fun _ => Proc.within_refl _

/-! ### Up to the file -/

theorem catFile_of_run
    (h : udfcat (.ofImage image nblocks) fuel turns path () = .ok (some c, ())) :
    ∃ part fe, CatFile image nblocks path part fe ∧
      catLoop (.ofImage image nblocks) fuel turns (.fresh part fe) (fun _ => 0) [] 0 () =
        .ok (c, ()) := by
  obtain ⟨⟨r, udf⟩, ⟨⟩, hopen, h⟩ := Proc.bind_eq_ok.mp h
  simp only at h
  split at h
  · cases h
  · rename_i hr
    obtain rfl : r = 0 := by
      rcases udfreadOpenInput_result _ _ _ _ hopen with hfail | ⟨hok, -⟩
      · simp only at hfail
        omega
      · exact hok
    have hmount := mounts_of_open hopen
    obtain ⟨hisopen, hleaf⟩ := hmount.leaf
    obtain ⟨⟨file, udf'⟩, ⟨⟩, hfile, h⟩ := Proc.bind_eq_ok.mp h
    rw [udfreadFileOpen, if_neg (by simp [hisopen])] at hfile
    obtain ⟨⟨found, udf₁⟩, ⟨⟩, hfind, hfile⟩ := Proc.bind_eq_ok.mp hfile
    rcases found with _ | ⟨dir, _ | fi⟩
    · cases hfile
      cases h
    · cases hfile
      cases h
    · have htoks : tokens path ≠ [] := by
        intro hnil
        rw [findFile, hnil] at hfind
        cases hfind
      obtain ⟨hsel, hpart⟩ := selects_of_findFileLoop hleaf htoks hfind
      obtain ⟨opened, ⟨⟩, hentry, hfile⟩ := Proc.bind_eq_ok.mp hfile
      cases hfile
      rw [fileOpen] at hentry
      split at hentry
      · cases hentry
        cases h
      · rename_i hplain
        obtain ⟨entry, ⟨⟩, hread, hentry⟩ := Proc.bind_eq_ok.mp hentry
        cases entry with
        | none =>
          cases hentry
          cases h
        | some fe =>
          cases hentry
          rw [udfReadFileEntry_image, hpart] at hread
          obtain ⟨out, ⟨⟩, hcat, h⟩ := Proc.bind_eq_ok.mp h
          cases h
          rw [hpart] at hcat
          exact ⟨udf.part, fe, ⟨udf, fi, fuel, hmount, rfl, hsel, hplain, hread⟩, hcat⟩

/-- A file of the image is opened. -/
theorem fileOpen_of_catFile (h : CatFile image nblocks path part fe) :
    ∃ fuel udf fi udf', udfreadOpenInput (.ofImage image nblocks) fuel (.init partitionFirst) () =
        .ok ((0, udf), ()) ∧
      udfreadFileOpen (.ofImage image nblocks) fuel udf path () =
        .ok ((some (fi, .fresh part fe), udf'), ()) := by
  obtain ⟨udf, fi, n, hmount, rfl, hsel, hplain, hread⟩ := h
  obtain ⟨n₁, hopen⟩ := open_of_mounts hmount
  obtain ⟨hisopen, hleaf⟩ := hmount.leaf
  obtain ⟨n₂, k, udf', hfind⟩ := findFileLoop_of_selects hsel hplain nblocks rfl hleaf none
  obtain ⟨-, hpart⟩ := selects_of_findFileLoop hleaf (by rintro hnil; rw [hnil] at hsel; cases hsel)
    hfind
  have hfind' : findFile (.ofImage image nblocks) (max n (max n₁ n₂)) udf path () =
      .ok ((some (k, some fi), udf'), ()) :=
    findFileLoop_within (by omega) _ _ _ _ _ _ hfind
  have hentry : fileOpen (.ofImage image nblocks) n udf' fi () =
      .ok (some (.fresh udf.part fe), ()) := by
    have hplain' : ¬ fi.characteristic &&& charFlagDir ≠ 0 := hplain
    have hread' : udfReadFileEntry (.ofImage image nblocks) n udf'.part fi.icb () =
        .ok (some fe, ()) := by
      rw [udfReadFileEntry_image, hpart]
      exact hread
    rw [fileOpen, if_neg hplain', Proc.bind_of_ok hread', hpart]
    rfl
  refine ⟨max n (max n₁ n₂), udf, fi, udf', udfreadOpenInput_within (by omega) _ _ hopen, ?_⟩
  rw [udfreadFileOpen, if_neg (by simp [hisopen]), Proc.bind_of_ok hfind']
  exact Proc.bind_of_ok (fileOpen_within (by omega) udf' fi _ _ hentry)

/-- `_cat` on a file just opened. -/
theorem catLoop_fresh (hlen : (UdfFile.fresh part fe).InRange) (hsized : fe.Sized) (image : Image)
    (nblocks : Option UInt32) (fuel : Nat) :
    ∃ turns c, catLoop (.ofImage image nblocks) (max fuel 2048) turns (.fresh part fe)
        (fun _ => 0) [] 0 () = .ok (c, ()) ∧ Cats image (.fresh part fe) c := by
  have hcached : Cached (mediaOf image) (.fresh part fe) := by
    intro _ hvalid
    cases hvalid
  exact catLoop_cats hlen hsized (Nat.le_max_right fuel 2048) nblocks (.refl _) hcached
    (show (0 : UInt64).toNat = 0 from rfl) (Nat.zero_le _) (fun b hb => by omega) (.inr rfl) _

/-- The program runs to its end on a file of the image. -/
theorem udfcat_of_catFile (hfile : CatFile image nblocks path part fe)
    (hlen : (UdfFile.fresh part fe).InRange) :
    ∃ fuel turns c, udfcat (.ofImage image nblocks) fuel turns path () = .ok (some c, ()) ∧
      Cats image (.fresh part fe) c := by
  obtain ⟨fuel, udf, fi, udf', hopen, hfileOpen⟩ := fileOpen_of_catFile hfile
  obtain ⟨_, _, _, -, -, -, -, hread⟩ := id hfile
  obtain ⟨turns, c, hrun, hcats⟩ :=
    catLoop_fresh hlen (udfReadFileEntry_sized hread) image nblocks fuel
  refine ⟨max fuel 2048, turns, c, ?_, hcats⟩
  rw [udfcat, Proc.bind_of_ok (udfreadOpenInput_within (Nat.le_max_left fuel 2048) _ _ hopen)]
  simp only
  rw [if_neg (by decide), Proc.bind_of_ok (udfreadFileOpen_within (Nat.le_max_left fuel 2048)
    udf path _ _ hfileOpen)]
  exact Proc.bind_of_ok hrun

/-- The program writes the file up to its first lost block, and says how far it came. -/
theorem udfcat_iff (image : Image) (nblocks : Option UInt32) (path : Bytes)
    (hlen : ∀ part fe, CatFile image nblocks path part fe → (UdfFile.fresh part fe).InRange)
    (c : CatOutput) :
    (∃ fuel turns, udfcat (.ofImage image nblocks) fuel turns path () = .ok (some c, ())) ↔
      ∃ part fe, CatFile image nblocks path part fe ∧ Cats image (.fresh part fe) c := by
  constructor
  · rintro ⟨fuel, turns, h⟩
    obtain ⟨part, fe, hfile, hrun⟩ := catFile_of_run h
    obtain ⟨_, _, _, -, -, -, -, hread⟩ := id hfile
    obtain ⟨turns', c', hrun', hcats⟩ :=
      catLoop_fresh (hlen part fe hfile) (udfReadFileEntry_sized hread) image nblocks fuel
    cases (catLoop_within (Nat.le_max_left fuel 2048) (Nat.le_max_left turns turns') _ _ _ _).unique
      (catLoop_within le_rfl (Nat.le_max_right turns turns') _ _ _ _) hrun hrun'
    exact ⟨part, fe, hfile, hcats⟩
  · rintro ⟨part, fe, hfile, hcats⟩
    obtain ⟨fuel, turns, c', hrun, hcats'⟩ := udfcat_of_catFile hfile (hlen part fe hfile)
    obtain rfl := hcats'.unique hcats
    exact ⟨fuel, turns, hrun⟩

end

/-! ### A file with a lost block -/

/-- The file entry of a file of two blocks, at blocks 306 and 307. -/
def lostBlockEntry : Nat → UInt8 :=
  withField 56 [0, 16] (withField 172 [8] (withField 176 [0, 16, 0, 0, 6]
    (withField 20 [4] (withField 27 [5] (tagged 261)))))

/-- The root directory has the file "a", whose second block is lost. -/
def lostBlockImage : Image :=
  minimalVolume 7 fun lba =>
    if lba = 301 then some (inlineDirBlock aFileFid)
    else if lba = 305 then some lostBlockEntry
    else if lba = 306 then some fun _ => 7
    else none

def oneFileFirst : Udfread := { oneFileOpened with partitionToOpen := partitionFirst }

def twoBlockFile : UdfFile :=
  .fresh oneFileFirst.part
    { length := 4096, fileType := 5,
      u := .ads .short [{ lba := 6, length := 4096, partition := 0, extentType := 0 }] }

theorem lostBlockImage_opened :
    udfreadOpenInput (.ofImage lostBlockImage none) 3 (.init partitionFirst) () =
      .ok ((0, oneFileFirst), ()) := by
  decide +kernel

theorem lostBlockImage_entry :
    udfReadFileEntry (faultFree lostBlockImage) 3 oneFileFirst.part aFile.icb () =
      .ok (some twoBlockFile.fe, ()) := by
  decide +kernel

/-- The file "a" is all that can be written. -/
theorem lostBlockImage_catFile {path : Bytes} {part : UdfPartitions} {fe : FileEntry}
    (h : CatFile lostBlockImage none path part fe) :
    part = oneFileFirst.part ∧ fe = twoBlockFile.fe := by
  obtain ⟨udf, fid, n, hmount, rfl, hsel, -, hread⟩ := h
  obtain ⟨m, hopen⟩ := open_of_mounts hmount
  cases (udfreadOpenInput_within (Nat.le_max_left m 3)).unique
    (udfreadOpenInput_within (Nat.le_max_right m 3)) hopen lostBlockImage_opened
  rw [oneFile_selects hsel] at hread
  cases (udfReadFileEntry_within (Nat.le_max_left n 3)).unique
    (udfReadFileEntry_within (Nat.le_max_right n 3)) hread lostBlockImage_entry
  exact ⟨rfl, rfl⟩

theorem twoBlockFile_content :
    (List.range 2048).map (logicalByte (mediaOf lostBlockImage) twoBlockFile) =
      List.replicate 2048 7 := by
  have hlba : udfreadFileLba twoBlockFile 0 = 306 := by decide
  have hblock : mediaOf lostBlockImage 306 = fun _ => 7 := rfl
  refine List.eq_replicate_iff.mpr ⟨by simp, fun b hb => ?_⟩
  obtain ⟨x, hx, rfl⟩ := List.mem_map.mp hb
  have hzero : x / 2048 = 0 := Nat.div_eq_of_lt (List.mem_range.mp hx)
  show blockByte (mediaOf lostBlockImage) twoBlockFile (.ofNat (x / 2048)) (x % 2048) = 7
  rw [hzero, blockByte, show UInt32.ofNat 0 = 0 from rfl, hlba, hblock]
  rfl

/-- The first block of file "a" is written, and then the read at offset 2048 fails. -/
theorem udfcat_lostBlock : ∃ fuel turns,
    udfcat (.ofImage lostBlockImage none) fuel turns [0x61] () =
      .ok (some { written := List.replicate 2048 7, failedAt := some 2048, got := 2048,
                  size := 4096 }, ()) := by
  have hlost : UpToLost lostBlockImage twoBlockFile 2048 := by
    refine ⟨by decide, fun b hb h => ?_, .inr ⟨1, rfl, by decide, rfl⟩⟩
    obtain rfl : b = 0 := by omega
    cases h.2
  refine (udfcat_iff lostBlockImage none [0x61] (fun part fe h => ?_) _).mpr
    ⟨oneFileFirst.part, twoBlockFile.fe, ⟨oneFileFirst, aFile, 3,
      mounts_of_open lostBlockImage_opened, rfl, .last rfl, not_not_intro rfl,
      lostBlockImage_entry⟩, 2048, hlost, ?_⟩
  · obtain ⟨rfl, rfl⟩ := lostBlockImage_catFile h
    show (4096 : UInt64).toNat ≤ _
    decide
  · rw [← twoBlockFile_content]
    rfl

end UdfRead
