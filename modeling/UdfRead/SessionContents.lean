import UdfRead.Session

/-!
# UdfRead.SessionContents

What a caller gets out of one handle while other calls go on. The results of `udfread_readdir` are
the entries of the directory in order, and then `NULL` (`session_lists`). The bytes of
`udfread_file_read`, strung together, are the content of the file from its start, and all of it once
a read has returned 0 (`session_reads`).
-/

namespace UdfRead

open CModel

namespace Event

/-- What `udfread_readdir` returns for directory `k`. -/
def readdirOf (k : Nat) : Event → Option (Option (Bytes × Bool))
  | readdir j r => if j = k then some r else none
  | _ => none

/-- The bytes that a read of file `k` stores. -/
def readOf (k : Nat) : Event → Option Bytes
  | read j _ r data => if j = k then some ((List.range r.toNat).map data) else none
  | _ => none

/-- The call asks file `k` for bytes, and gets none. -/
def AtEnd (k : Nat) : Event → Prop
  | read j bytes r _ => j = k ∧ bytes.toNat ≠ 0 ∧ r = 0
  | _ => False

/-- The call leaves the position of directory `k` to `udfread_readdir`. -/
def KeepsDir (k : Nat) (e : Event) : Prop := e ≠ .rewinddir k ∧ e ≠ .closedir k

/-- The call leaves the position of file `k` to `udfread_file_read`. -/
def KeepsFile (k : Nat) (e : Event) : Prop := e ≠ .fileClose k ∧ ∀ r, e ≠ .seek k r

end Event

section

variable {media : Media} {part : UdfPartitions} {root entries : List UdfFileIdentifier}
  {fs fs' : FileSystem} {e : Event} {es : List Event} {k c pos : Nat} {fe : FileEntry}

/-! ## Directories -/

/-- What a call can do to an open directory. -/
inductive DirTurn (entries : List UdfFileIdentifier) (k c : Nat) (e : Event) :
    Option (List UdfFileIdentifier × Nat) → Prop where
  | other : e.readdirOf k = none → DirTurn entries k c e (some (entries, c))
  | entry {fid : UdfFileIdentifier} : entries[c]? = some fid →
      e.readdirOf k = some (some fid.shown) → DirTurn entries k c e (some (entries, c + 1))
  | atEnd : entries.length ≤ c → e.readdirOf k = some none →
      DirTurn entries k c e (some (entries, c))

theorem FileSystem.Step.dirTurn (h : FileSystem.Step media part root fs e fs')
    (hk : fs.dirs k = some (entries, c)) (hkeeps : e.KeepsDir k) :
    DirTurn entries k c e (fs'.dirs k) := by
  have hother : ∀ {d}, d = some (entries, c) → e.readdirOf k = none → DirTurn entries k c e d := by
    rintro d rfl he
    exact .other he
  have hset : ∀ {j x}, k ≠ j → (fs.setDir j x).dirs k = some (entries, c) := by
    intro j x hne
    simpa [hne] using hk
  -- a directory that is opened gets a number of its own
  have hnew : ∀ {j x}, fs.dirs j = none → (fs.setDir j x).dirs k = some (entries, c) := by
    intro j x hj
    refine hset ?_
    rintro rfl
    rw [hk] at hj
    cases hj
  cases h with
  | opendirFails | opendirAtFails _ | fileOpenFails | fileOpenatFails _ | fileOpen _ _ _ _
  | fileOpenat _ _ _ _ _ | fileSize _ | fileTell _ | seek _ | seekFails _ | read _ _ _ _ _
  | readFails _ | farRead _ _ | readBlocks _ _ | fileClose _ => exact hother hk rfl
  | opendir hj _ => exact hother (hnew hj) rfl
  | opendirAt _ hj _ _ _ => exact hother (hnew hj) rfl
  | @readdir j c' fid entries' hj hfid =>
    by_cases hjk : j = k
    · subst hjk
      rw [hk] at hj
      cases hj
      simpa using DirTurn.entry hfid (by simp [Event.readdirOf])
    · exact hother (hset fun heq => hjk heq.symm) (if_neg hjk)
  | @readdirEnd j c' entries' hj hend =>
    by_cases hjk : j = k
    · subst hjk
      rw [hk] at hj ⊢
      cases hj
      exact .atEnd hend (if_pos rfl)
    · exact hother hk (if_neg hjk)
  | @rewinddir j _ _ _ =>
    refine hother (hset ?_) rfl
    rintro rfl
    exact hkeeps.1 rfl
  | @closedir j _ =>
    refine hother (hset ?_) rfl
    rintro rfl
    exact hkeeps.2 rfl

/-- The directory is listed in order, whatever is called in between. -/
theorem run_lists (hrun : Run (FileSystem.Step media part root) fs es fs')
    (hk : fs.dirs k = some (entries, c)) (hkeeps : ∀ e ∈ es, e.KeepsDir k) (i : Nat)
    (r : Option (Bytes × Bool)) (hr : (es.filterMap (Event.readdirOf k))[i]? = some r) :
    r = (entries[c + i]?).map UdfFileIdentifier.shown := by
  induction hrun generalizing c i with
  | nil fs => simp at hr
  | @cons fs fs₁ fs' e es hstep _ ih =>
    have hturn := hstep.dirTurn hk (hkeeps e (by simp))
    have hrest : ∀ e' ∈ es, e'.KeepsDir k := fun e' he' => hkeeps e' (by simp [he'])
    generalize hd : fs₁.dirs k = d at hturn
    cases hturn with
    | other hnone =>
      rw [List.filterMap_cons_none hnone] at hr
      exact ih hd hrest i hr
    | @entry fid hfid hsome =>
      rw [List.filterMap_cons_some hsome] at hr
      cases i with
      | zero =>
        rw [Nat.add_zero, hfid]
        exact (Option.some.inj hr).symm
      | succ i =>
        rw [Nat.add_succ, ← Nat.succ_add]
        exact ih hd hrest i hr
    | atEnd hend hsome =>
      rw [List.filterMap_cons_some hsome] at hr
      rw [List.getElem?_eq_none_iff.mpr (by omega)]
      cases i with
      | zero => exact (Option.some.inj hr).symm
      | succ i =>
        rw [ih hd hrest i hr, List.getElem?_eq_none_iff.mpr (by omega)]

/-! ## Files -/

/-- What a call can do to an open file. -/
inductive FileTurn (content : Nat → UInt8) (fe : FileEntry) (k pos : Nat) (e : Event) :
    Option (FileEntry × Nat) → Prop where
  | other : ¬ e.AtEnd k → e.readOf k = none ∨ e.readOf k = some [] →
      FileTurn content fe k pos e (some (fe, pos))
  | bytes {count : Nat} : pos + count ≤ max pos fe.length.toNat →
      (e.AtEnd k → fe.length.toNat ≤ pos + count) →
      e.readOf k = some ((List.range count).map fun x => content (pos + x)) →
      FileTurn content fe k pos e (some (fe, pos + count))

theorem FileSystem.Step.fileTurn (h : FileSystem.Step media part root fs e fs')
    (hk : fs.files k = some (fe, pos)) (hrange : (UdfFile.fresh part fe).InRange)
    (hkeeps : e.KeepsFile k) :
    FileTurn (logicalByte media (.fresh part fe)) fe k pos e (fs'.files k) := by
  have hother : ∀ {x}, x = some (fe, pos) → ¬ e.AtEnd k →
      e.readOf k = none ∨ e.readOf k = some [] →
      FileTurn (logicalByte media (.fresh part fe)) fe k pos e x := by
    rintro x rfl hend he
    exact .other hend he
  have hset : ∀ {j x}, k ≠ j → (fs.setFile j x).files k = some (fe, pos) := by
    intro j x hne
    simpa [hne] using hk
  have hnew : ∀ {j x}, fs.files j = none → (fs.setFile j x).files k = some (fe, pos) := by
    intro j x hj
    refine hset ?_
    rintro rfl
    rw [hk] at hj
    cases hj
  cases h with
  | opendirFails | opendirAtFails _ | fileOpenFails | fileOpenatFails _ | opendir _ _
  | opendirAt _ _ _ _ _ | fileSize _ | fileTell _ | readdir _ _ | readdirEnd _ _ | rewinddir _
  | closedir _ | seekFails _ | readBlocks _ _ => exact hother hk (fun h => h) (.inl rfl)
  | fileOpen hj _ _ _ => exact hother (hnew hj) (fun h => h) (.inl rfl)
  | fileOpenat _ hj _ _ _ => exact hother (hnew hj) (fun h => h) (.inl rfl)
  | @seek j _ pos' _ _ =>
    refine hother (hset ?_) (fun h => h) (.inl rfl)
    rintro rfl
    exact hkeeps.2 _ rfl
  | @read j pos' count fe' bytes data hj hle hrest hzero hdata =>
    by_cases hjk : j = k
    · subst hjk
      rw [hk] at hj
      cases hj
      have hbytes : (List.range (count : Int).toNat).map data =
          (List.range count).map fun x => logicalByte media (.fresh part fe) (pos + x) := by
        rw [Int.toNat_natCast]
        exact List.map_congr_left fun x hx => hdata x (List.mem_range.mp hx)
      have hturn : FileTurn (logicalByte media (.fresh part fe)) fe j pos (.read j bytes count data)
          (some (fe, pos + count)) := by
        refine .bytes (by omega) (fun hend => ?_) ((if_pos rfl).trans (congrArg some hbytes))
        obtain ⟨-, hask, hnone⟩ := hend
        omega
      simpa using hturn
    · exact hother (hset fun heq => hjk heq.symm) (fun h => hjk h.1) (.inl (if_neg hjk))
  | @readFails j bytes data _ =>
    refine hother hk (fun h => by cases h.2.2) ?_
    by_cases hjk : j = k
    · exact .inr (if_pos hjk)
    · exact .inl (if_neg hjk)
  | @farRead j pos' pos'' fe' bytes r data hj hfar =>
    have hjk : j ≠ k := by
      rintro rfl
      rw [hk] at hj
      cases hj
      exact hfar hrange
    exact hother (hset fun heq => hjk heq.symm) (fun h => hjk h.1) (.inl (if_neg hjk))
  | @fileClose j _ =>
    refine hother (hset ?_) (fun h => h) (.inl rfl)
    rintro rfl
    exact hkeeps.1 rfl

/-- The file is read in order, whatever is called in between. -/
theorem run_reads (hrun : Run (FileSystem.Step media part root) fs es fs')
    (hk : fs.files k = some (fe, pos)) (hrange : (UdfFile.fresh part fe).InRange)
    (hkeeps : ∀ e ∈ es, e.KeepsFile k) :
    ∃ count, (es.filterMap (Event.readOf k)).flatten =
        (List.range count).map (fun x => logicalByte media (.fresh part fe) (pos + x)) ∧
      pos + count ≤ max pos fe.length.toNat ∧
      ((∃ e ∈ es, e.AtEnd k) → fe.length.toNat ≤ pos + count) := by
  induction hrun generalizing pos with
  | nil fs => exact ⟨0, rfl, by omega, by simp⟩
  | @cons fs fs₁ fs' e es hstep _ ih =>
    have hturn := hstep.fileTurn hk hrange (hkeeps e (by simp))
    have hrest : ∀ e' ∈ es, e'.KeepsFile k := fun e' he' => hkeeps e' (by simp [he'])
    generalize hf : fs₁.files k = f at hturn
    cases hturn with
    | other hend hnone =>
      obtain ⟨count, hout, hle, hat⟩ := ih hf hrest
      refine ⟨count, ?_, hle, fun h => hat ?_⟩
      · obtain hnone | hnil := hnone
        · rw [List.filterMap_cons_none hnone, hout]
        · rw [List.filterMap_cons_some hnil, List.flatten_cons, List.nil_append, hout]
      · obtain ⟨e', he', hat'⟩ := h
        obtain rfl | he' := List.mem_cons.mp he'
        · exact absurd hat' hend
        · exact ⟨e', he', hat'⟩
    | @bytes count₁ hle₁ hat₁ hout₁ =>
      obtain ⟨count, hout, hle, hat⟩ := ih hf hrest
      refine ⟨count₁ + count, ?_, by omega, fun h => ?_⟩
      · rw [List.filterMap_cons_some hout₁, List.flatten_cons, hout, List.range_add, List.map_append,
          List.map_map]
        refine congrArg _ (List.map_congr_left fun x _ => ?_)
        simp only [Function.comp_apply, Nat.add_assoc]
      · obtain ⟨e', he', hat'⟩ := h
        obtain rfl | he' := List.mem_cons.mp he'
        · have hend := hat₁ hat'
          omega
        · have hend := hat ⟨e', he', hat'⟩
          omega

end

/-! ## The program -/

section

variable {σ : Type} {I : BlockInput σ} {media : Media} {udf₀ udf : Udfread} {fuel k : Nat}
  {s s' : σ} {path : Bytes} {before after : List Event} {st : Session σ}

/-- Listing a directory gives its entries in order, each once, and then `NULL`, whatever else is
called in between. -/
theorem session_lists (hI : I.Serves media) (hclosed : udf₀.Closed)
    (hopen : udfreadOpenInput I fuel udf₀ s = .ok ((0, udf), s'))
    (hvolume : SteadyVolume (some ∘ media) udf.part udf.rootEntries)
    (hrun : Run (Session.Step I) (.opened udf s') (before ++ .opendir path (some k) :: after) st)
    (hkeeps : ∀ e ∈ after, e.KeepsDir k) :
    ∃ entries, Resolves (some ∘ media) udf.part udf.rootEntries (tokens path) entries ∧
      ∀ (i : Nat) r, (after.filterMap (Event.readdirOf k))[i]? = some r →
        r = (entries[i]?).map UdfFileIdentifier.shown := by
  obtain ⟨fs, hfs, -⟩ := (SessionRefines.opened hclosed hopen).run hI hvolume hrun
  obtain ⟨fs₁, -, hfs₁⟩ := hfs.split
  cases hfs₁ with
  | cons hstep hafter =>
    cases hstep with
    | @opendir _ _ entries hk hres =>
      refine ⟨entries, hres, fun i r hr => ?_⟩
      have hopened : (fs₁.setDir k (some (entries, 0))).dirs k = some (entries, 0) := by simp
      have hlist := run_lists hafter hopened hkeeps i r hr
      rwa [Nat.zero_add] at hlist

/-- Reading a file gives its content from the start, whatever else is called in between, and no
byte past its length. All of the file has been read once a read has returned 0. -/
theorem session_reads (hI : I.Serves media) (hclosed : udf₀.Closed)
    (hopen : udfreadOpenInput I fuel udf₀ s = .ok ((0, udf), s'))
    (hvolume : SteadyVolume (some ∘ media) udf.part udf.rootEntries)
    (hrun : Run (Session.Step I) (.opened udf s') (before ++ .fileOpen path (some k) :: after) st)
    (hkeeps : ∀ e ∈ after, e.KeepsFile k) :
    ∃ fid fe, Selects (some ∘ media) udf.part udf.rootEntries (tokens path) fid ∧
      FileAt (some ∘ media) udf.part fid.icb fe ∧
      ((UdfFile.fresh udf.part fe).InRange → ∃ count,
        (after.filterMap (Event.readOf k)).flatten =
          (List.range count).map (logicalByte media (.fresh udf.part fe)) ∧
        count ≤ fe.length.toNat ∧ ((∃ e ∈ after, e.AtEnd k) → count = fe.length.toNat)) := by
  obtain ⟨fs, hfs, -⟩ := (SessionRefines.opened hclosed hopen).run hI hvolume hrun
  obtain ⟨fs₁, -, hfs₁⟩ := hfs.split
  cases hfs₁ with
  | cons hstep hafter =>
    cases hstep with
    | @fileOpen _ _ fid fe hk hsel hdir hfe =>
      refine ⟨fid, fe, hsel, hfe, fun hrange => ?_⟩
      have hopened : (fs₁.setFile k (some (fe, 0))).files k = some (fe, 0) := by simp
      obtain ⟨count, hout, hle, hat⟩ := run_reads hafter hopened hrange hkeeps
      simp only [Nat.zero_add] at hout hle hat
      exact ⟨count, hout, by omega, fun h => by have := hat h; omega⟩

end

/-! ### A volume with one file -/

/-- The file is opened while the directory is listed. -/
theorem session_lists_oneFile : ∃ entries : List UdfFileIdentifier,
    Resolves (some ∘ oneFileMedia) oneFileOpened.part oneFileOpened.rootEntries [] entries ∧
      (entries[0]?).map UdfFileIdentifier.shown = some ([0x61], false) ∧ entries[1]? = none := by
  have hdir : udfreadOpendir oneFileInput 3 oneFileOpened [0x2f] () =
      .ok ((some { dir := 0, currentFile := 0 }, oneFileOpened), ()) := by
    decide +kernel
  have hrun : ∃ st, Run (Session.Step oneFileInput) (.opened oneFileOpened ())
      ([] ++ .opendir [0x2f] (some 0) :: [.readdir 0 (some ([0x61], false)),
        .fileOpen [0x61] (some 4), .readdir 0 none]) st := by
    refine ⟨?last, ?run⟩
    case run =>
      refine .cons (.opendir (k := 0) (r := some _) rfl hdir) ?_
      refine .cons (.readdir rfl rfl) ?_
      refine .cons (.fileOpen (k := 4) (r := some _) rfl oneFileMedia_file) ?_
      refine .cons (.readdir rfl rfl) ?_
      exact .nil _
  obtain ⟨st, hrun⟩ := hrun
  have hkeeps : ∀ e ∈ [Event.readdir 0 (some ([0x61], false)), .fileOpen [0x61] (some 4),
      .readdir 0 none], e.KeepsDir 0 := by
    simp [Event.KeepsDir]
  obtain ⟨entries, hres, hlist⟩ := session_lists (BlockInput.ofImage_serves oneFileMedia none)
    (closed_init 7) oneFileMedia_opened oneFileMedia_steady hrun hkeeps
  have htokens : tokens [0x2f] = [] := by decide
  rw [htokens] at hres
  refine ⟨entries, hres, (hlist 0 _ rfl).symm, ?_⟩
  simpa using (hlist 1 none rfl).symm

/-- A read of ten bytes gets the two of the file, and the next one 0. -/
theorem session_reads_oneFile : ∃ fid fe,
    Selects (some ∘ oneFileMedia) oneFileOpened.part oneFileOpened.rootEntries [[0x61]] fid ∧
      FileAt (some ∘ oneFileMedia) oneFileOpened.part fid.icb fe ∧
      ((UdfFile.fresh oneFileOpened.part fe).InRange → fe.length.toNat = 2) := by
  have hread : ∃ f mem, udfreadFileRead oneFileInput 10 (.fresh oneFileOpened.part oneFileEntry)
      (fun _ => 0) 0 10 () = .ok ((2, f, mem), ()) ∧
      ∃ f' mem', udfreadFileRead oneFileInput 10 f (fun _ => 0) 0 10 () =
        .ok ((0, f', mem'), ()) :=
    ⟨_, _, rfl, _, _, rfl⟩
  obtain ⟨f, mem, hread, f', mem', hread'⟩ := hread
  have hrun : ∃ st, Run (Session.Step oneFileInput) (.opened oneFileOpened ())
      ([] ++ .fileOpen [0x61] (some 4) :: [.read 4 10 2 fun x => mem (0 + x),
        .read 4 10 0 fun x => mem' (0 + x)]) st := by
    refine ⟨?last, ?run⟩
    case run =>
      refine .cons (.fileOpen (k := 4) (r := some _) rfl oneFileMedia_file) ?_
      refine .cons (.read rfl (by decide) hread) ?_
      refine .cons (.read rfl (by decide) hread') ?_
      exact .nil _
  obtain ⟨st, hrun⟩ := hrun
  have hkeeps : ∀ e ∈ [Event.read 4 10 2 fun x => mem (0 + x), .read 4 10 0 fun x => mem' (0 + x)],
      e.KeepsFile 4 := by
    simp [Event.KeepsFile]
  obtain ⟨fid, fe, hsel, hfe, hall⟩ := session_reads (BlockInput.ofImage_serves oneFileMedia none)
    (closed_init 7) oneFileMedia_opened oneFileMedia_steady hrun hkeeps
  have htokens : tokens [0x61] = [[0x61]] := by decide
  rw [htokens] at hsel
  refine ⟨fid, fe, hsel, hfe, fun hrange => ?_⟩
  obtain ⟨count, hout, -, hat⟩ := hall hrange
  have hcount : count = 2 := by simpa [Event.readOf] using (congrArg List.length hout).symm
  rw [← hat ⟨_, List.mem_cons_of_mem _ (List.mem_singleton.mpr rfl), rfl, by decide, rfl⟩, hcount]

end UdfRead
