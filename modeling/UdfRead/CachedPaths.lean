import UdfRead.Handles
import UdfRead.Session

/-!
# UdfRead.CachedPaths

Paths and the directory cache. Opening a path is opening its directory and then its last name in
there, over any input (`paths_compose`). A directory that was opened once is found in the cache from
then on: whatever was looked up in between, a later call for it reads no block (`lookups_cached`).
-/

namespace UdfRead

open CModel

/-- One component of a path. -/
structure IsName (name : Bytes) : Prop where
  nonempty : name ≠ []
  plain : ∀ b ∈ name, b ≠ 0 ∧ b ≠ 0x2f ∧ b ≠ 0x5c

/-- `"%s/%s"`. -/
def joinPath (path name : Bytes) : Bytes := cString path ++ 0x2f :: name

section

variable {σ : Type} {I : BlockInput σ} {fuel : Nat} {udf udf' : Udfread} {path name : Bytes}
  {s s' : σ}

/-! ## Paths -/

theorem cString_plain {name : Bytes} (h : ∀ b ∈ name, b ≠ 0) : cString name = name :=
  List.takeWhile_eq_self_iff.mpr (by simpa using h)

theorem cString_joinPath (path : Bytes) (hname : IsName name) :
    cString (joinPath path name) = joinPath path name := by
  refine cString_plain fun b hb => ?_
  rcases List.mem_append.mp hb with hb | hb
  · simpa using List.mem_takeWhile_imp hb
  · rcases List.mem_cons.mp hb with rfl | hb
    · decide
    · exact (hname.plain b hb).1

theorem tokens_joinPath (path : Bytes) (hname : IsName name) :
    tokens (joinPath path name) = tokens path ++ [name] := by
  have hplain : ∀ b ∈ name, (b == 0x2f || b == 0x5c) = false := by
    intro b hb
    simp [hname.plain b hb]
  unfold tokens
  rw [cString_joinPath path hname, joinPath, List.splitOnP_append_cons _ _ (by decide),
    List.splitOnP_eq_singleton hplain, List.filter_append]
  simp [hname.nonempty]

/-- The loop of `_find_file` goes through the first components, and through the others from the
directory it has come to. -/
theorem findFileLoop_append (toks : List Bytes) (token : Bytes) (rest : List Bytes) (udf : Udfread)
    (dir : Nat) (fid : Option UdfFileIdentifier) :
    findFileLoop I fuel (toks ++ token :: rest) udf dir fid = (do
      match ← findFileLoop I fuel toks udf dir fid with
      | (some (some dir, fid), udf) => findFileLoop I fuel (token :: rest) udf dir fid
      | (_, udf) => return (none, udf)) := by
  have herror : ∀ {α β : Type} (t : Trap) (f : α → Proc σ β),
      (Proc.ofRes (.error t) >>= f : Proc σ β) = Proc.ofRes (.error t) := fun _ _ => rfl
  induction toks generalizing udf dir fid with
  | nil => rfl
  | cons tok toks ih =>
    rw [List.cons_append, findFileLoop, findFileLoop.eq_def I fuel (tok :: toks)]
    simp only
    cases udf.dirs[dir]? with
    | none => rw [herror]
    | some d =>
      simp only
      cases scanDir d.entries tok with
      | none => rfl
      | some index =>
        simp only
        cases d.entries[index]? with
        | none => rw [herror]
        | some fid =>
          simp only
          split
          · rw [bind_assoc]
            congr
            funext x
            obtain ⟨_ | sub, udf⟩ := x
            · rfl
            · exact ih udf sub (some fid)
          · rw [if_pos (by simp)]
            split
            · rfl
            · rfl

/-- Opening a directory by its path is opening it in its parent. -/
theorem udfreadOpendir_joinPath (udf : Udfread) (hpath : cString path ≠ []) (hname : IsName name) :
    udfreadOpendir I fuel udf (joinPath path name) = (do
      match ← udfreadOpendir I fuel udf path with
      | (some p, udf) => udfreadOpendirAt I fuel udf p name
      | (none, udf) => return (none, udf)) := by
  have hjoin : joinPath path name ≠ [] := by simp [joinPath]
  have hcname : cString name = name := cString_plain fun b hb => (hname.plain b hb).1
  unfold udfreadOpendir findFile
  rw [cString_joinPath path hname, tokens_joinPath path hname]
  cases hopen : udf.isOpen with
  | false => rfl
  | true =>
    rw [if_neg (by simp [hjoin]), if_neg (by simp [hpath]), findFileLoop_append, bind_assoc,
      bind_assoc]
    congr
    funext x
    obtain ⟨_ | ⟨_ | dir, fid⟩, udf⟩ := x
    · rfl
    · rfl
    · simp only [pure_bind, findFileLoop, udfreadOpendirAt, hcname, hname.nonempty, if_false]
      cases hd : udf.dirs[dir]? with
      | none => rfl
      | some d =>
        simp only
        cases hscan : scanDir d.entries name with
        | none => rfl
        | some index =>
          simp only
          cases hfid : d.entries[index]? with
          | none =>
            rw [cacheSubdir, hd]
            simp only [hfid]
            rfl
          | some fid =>
            simp only
            by_cases hdir : fid.characteristic &&& charFlagDir = 0
            · rw [if_neg (not_not_intro hdir), cacheSubdir, hd]
              simp only [hfid, hdir, if_true]
              rfl
            · rw [if_pos hdir, bind_assoc]
              congr
              funext x
              obtain ⟨_ | sub, udf⟩ := x
              · rfl
              · rfl

/-- The last turn of the loop of `_find_file`, where it finds a file. -/
theorem findFileLoop_file {dir index : Nat} {d : UdfDir} {fi : UdfFileIdentifier}
    (fid₀ : Option UdfFileIdentifier) (hd : udf.dirs[dir]? = some d)
    (hscan : scanDir d.entries name = some index) (hfid : d.entries[index]? = some fi)
    (hfile : ¬ fi.IsDir) :
    findFileLoop I fuel [name] udf dir fid₀ s = .ok ((some (none, some fi), udf), s) := by
  have hdir : fi.characteristic &&& charFlagDir = 0 := not_not.mp hfile
  simp only [findFileLoop, hd, hscan, hfid, hdir]
  rfl

/-- A file that can be opened is no directory. -/
theorem fileOpen_isFile {fi : UdfFileIdentifier} {f : UdfFile}
    (h : fileOpen I fuel udf fi s = .ok (some f, s')) : ¬ fi.IsDir := by
  unfold fileOpen at h
  split at h
  · cases h
  · assumption

/-- A path opens a file exactly if its directory can be opened, and the last name opens the file in
there. -/
theorem udfreadFileOpen_joinPath (hpath : cString path ≠ []) (hname : IsName name)
    {x : UdfFileIdentifier × UdfFile} :
    udfreadFileOpen I fuel udf (joinPath path name) s = .ok ((some x, udf'), s') ↔
      ∃ p udf₁ s₁, udfreadOpendir I fuel udf path s = .ok ((some p, udf₁), s₁) ∧
        udfreadFileOpenat I fuel udf₁ p name s₁ = .ok ((some x, udf'), s') := by
  have hcname : cString name ≠ [] := by
    rw [cString_plain fun b hb => (hname.plain b hb).1]
    exact hname.nonempty
  have hfind : findFile I fuel udf (joinPath path name) = (do
      match ← findFile I fuel udf path with
      | (some (some dir, fid), udf) => findFileLoop I fuel [name] udf dir fid
      | (_, udf) => return (none, udf)) := by
    unfold findFile
    rw [tokens_joinPath path hname, findFileLoop_append]
  constructor
  · intro hrun
    unfold udfreadFileOpen at hrun
    split at hrun
    · cases hrun
    · rename_i hisOpen
      obtain ⟨⟨found, udf₂⟩, s₂, hfound, hrun⟩ := Proc.bind_eq_ok.mp hrun
      obtain _ | ⟨dir', _ | fi⟩ := found
      · cases hrun
      · cases hrun
      · obtain ⟨file, s₃, hopen, hrun⟩ := Proc.bind_eq_ok.mp hrun
        cases file with
        | none => cases hrun
        | some f =>
          cases hrun
          have hfile := fileOpen_isFile hopen
          rw [hfind] at hfound
          obtain ⟨⟨found, udf₁⟩, s₁, hfirst, hlast⟩ := Proc.bind_eq_ok.mp hfound
          obtain _ | ⟨_ | dir, fid⟩ := found
          · cases hlast
          · cases hlast
          · -- the loop ends at a file
            obtain ⟨d, hd, hturn⟩ := findFileLoop_cases hlast
            have hdirs : udfreadOpendir I fuel udf path s =
                .ok ((some { dir, currentFile := 0 }, udf₁), s₁) := by
              unfold udfreadOpendir
              rw [if_neg (by simpa [hpath] using hisOpen), Proc.bind_of_ok hfirst]
              rfl
            refine ⟨_, udf₁, s₁, hdirs, ?_⟩
            cases hturn with
            | file hscan hfid hdir _ =>
              unfold udfreadFileOpenat
              rw [if_neg hcname]
              simp only [hd, hscan, hfid]
              exact Proc.bind_of_ok hopen
            | down hscan hfid hdir hcache hrest =>
              cases hrest
              exact absurd hdir hfile
  · rintro ⟨p, udf₁, s₁, hdir, hrun⟩
    obtain ⟨hr, -⟩ | ⟨found, hfirst, hr | ⟨dir, fid, rfl, hr⟩⟩ := udfreadOpendir_cases hdir
    · cases hr
    · cases hr
    · cases hr
      obtain ⟨rfl, hr | ⟨d, index, fi, file, hd, hscan, hfid, hopen, hr⟩⟩ :=
        udfreadFileOpenat_cases hrun
      · cases hr
      · obtain ⟨f, rfl, rfl⟩ := Option.map_eq_some_iff.mp hr.symm
        have hfile := fileOpen_isFile hopen
        have hlast : findFileLoop I fuel [name] udf' dir fid s₁ =
            .ok ((some (none, some fi), udf'), s₁) :=
          findFileLoop_file fid hd hscan hfid hfile
        have hisOpen : ¬ (!udf.isOpen) = true := by
          intro h
          unfold udfreadOpendir at hdir
          rw [if_pos (by simp [h])] at hdir
          cases hdir
        unfold udfreadFileOpen
        rw [if_neg hisOpen, hfind, bind_assoc, Proc.bind_of_ok hfirst]
        simp only
        rw [Proc.bind_of_ok hlast]
        exact Proc.bind_of_ok hopen

/-- Over any input and whatever is cached, a path with one more component opens what that component
opens in the directory of the path. -/
theorem paths_compose (I : BlockInput σ) (fuel : Nat) (udf : Udfread) {path name : Bytes}
    (hpath : cString path ≠ []) (hname : IsName name) :
    (udfreadOpendir I fuel udf (joinPath path name) = do
      match ← udfreadOpendir I fuel udf path with
      | (some p, udf) => udfreadOpendirAt I fuel udf p name
      | (none, udf) => return (none, udf)) ∧
    ∀ s x udf' s', udfreadFileOpen I fuel udf (joinPath path name) s =
        .ok ((some x, udf'), s') ↔
      ∃ p udf₁ s₁, udfreadOpendir I fuel udf path s = .ok ((some p, udf₁), s₁) ∧
        udfreadFileOpenat I fuel udf₁ p name s₁ = .ok ((some x, udf'), s') :=
  ⟨udfreadOpendir_joinPath udf hpath hname, fun _ _ _ _ => udfreadFileOpen_joinPath hpath hname⟩

/-- File "a" of the root directory. -/
theorem paths_compose_oneFile :
    ∃ x, udfreadFileOpen oneFileInput 3 oneFileOpened (joinPath [0x2f] [0x61]) () =
      .ok ((some x, oneFileOpened), ()) := by
  have hname : IsName [0x61] := ⟨by simp, by simp⟩
  have hdir : udfreadOpendir oneFileInput 3 oneFileOpened [0x2f] () =
      .ok ((some { dir := 0, currentFile := 0 }, oneFileOpened), ()) := by
    decide +kernel
  have hfile : udfreadFileOpenat oneFileInput 3 oneFileOpened { dir := 0, currentFile := 0 } [0x61]
      () = .ok ((some (aFile, .fresh oneFileOpened.part oneFileEntry), oneFileOpened), ()) := by
    have hscan : scanDir [aFile] [0x61] = some 0 := by decide
    have hroot : oneFileOpened.dirs[0]? = some { entries := [aFile], subdirs := none } := rfl
    rw [udfreadFileOpenat, if_neg (by decide)]
    simp only [hroot, hscan, List.getElem?_cons_zero]
    exact Proc.bind_of_ok oneFileMedia_fileOpen
  exact ⟨_, ((paths_compose oneFileInput 3 oneFileOpened (by decide) hname).2 () _ _ ()).mpr
    ⟨_, _, _, hdir, hfile⟩⟩

/-! ## The cache -/

/-- Slot `index` of directory `dir` holds directory `sub`. -/
def Udfread.Holds (udf : Udfread) (dir index sub : Nat) : Prop :=
  ∃ d slots, udf.dirs[dir]? = some d ∧ d.subdirs = some slots ∧ slots[index]? = some (some sub)

/-- The components lead from directory `dir` to directory `k` of the cache. -/
inductive CachedPath (udf : Udfread) : (dir : Nat) → List Bytes → (k : Nat) → Prop where
  | nil (dir : Nat) : CachedPath udf dir [] dir
  | cons {dir index sub k : Nat} {d : UdfDir} {fid : UdfFileIdentifier} {token : Bytes}
      {rest : List Bytes} : udf.dirs[dir]? = some d → scanDir d.entries token = some index →
      d.entries[index]? = some fid → fid.IsDir → udf.Holds dir index sub →
      CachedPath udf sub rest k → CachedPath udf dir (token :: rest) k

/-- Directories stay with their entries, and filled slots stay filled. -/
structure Extends (udf udf' : Udfread) : Prop where
  node : ∀ (i : Nat) (d : UdfDir), udf.dirs[i]? = some d → udf'.Node i d.entries
  holds : ∀ dir index sub, udf.Holds dir index sub → udf'.Holds dir index sub

theorem Extends.refl (udf : Udfread) : Extends udf udf :=
  ⟨fun _ d hd => ⟨d, hd, rfl⟩, fun _ _ _ h => h⟩

theorem Extends.trans {udf'' : Udfread} (h : Extends udf udf') (h' : Extends udf' udf'') :
    Extends udf udf'' := by
  refine ⟨fun i d hd => ?_, fun dir index sub hs => h'.holds _ _ _ (h.holds dir index sub hs)⟩
  obtain ⟨d', hd', hentries⟩ := h.node i d hd
  rw [← hentries]
  exact h'.node i d' hd'

theorem CachedPath.extends {dir k : Nat} {toks : List Bytes} (h : CachedPath udf dir toks k)
    (hext : Extends udf udf') : CachedPath udf' dir toks k := by
  induction h with
  | nil dir => exact .nil dir
  | @cons dir index sub k d fid token rest hd hscan hfid hdir hslot _ ih =>
    obtain ⟨d', hd', hentries⟩ := hext.node dir d hd
    rw [← hentries] at hscan hfid
    exact .cons hd' hscan hfid hdir (hext.holds _ _ _ hslot) ih

/-- New slots that keep the filled ones. -/
theorem setSlots_extends {dir : Nat} {d : UdfDir} {slots : List (Option Nat)} (new : List UdfDir)
    (hd : udf.dirs[dir]? = some d)
    (hkeep : ∀ j k : Nat, d.slots[j]? = some (some k) → slots[j]? = some (some k)) :
    Extends udf (udf.setSlots dir d slots new) := by
  refine ⟨fun i x hx => setSlots_node hd hx, ?_⟩
  rintro i j k ⟨x, xs, hx, hxs, hj⟩
  have hi : i < udf.dirs.length := (List.getElem?_eq_some_iff.mp hx).1
  unfold Udfread.Holds Udfread.setSlots
  simp only
  rw [List.getElem?_append_left (by simpa using hi), List.getElem?_set]
  by_cases hdir : dir = i
  · subst hdir
    rw [hd] at hx
    cases hx
    rw [if_pos rfl, if_pos hi]
    refine ⟨_, slots, rfl, rfl, hkeep j k ?_⟩
    rw [UdfDir.slots, hxs, Option.getD_some]
    exact hj
  · rw [if_neg hdir]
    exact ⟨x, xs, hx, hxs, hj⟩

theorem setSlots_holds {dir index sub : Nat} {d : UdfDir} {slots : List (Option Nat)}
    (new : List UdfDir) (hd : udf.dirs[dir]? = some d) (hslot : slots[index]? = some (some sub)) :
    (udf.setSlots dir d slots new).Holds dir index sub := by
  have hi : dir < udf.dirs.length := (List.getElem?_eq_some_iff.mp hd).1
  unfold Udfread.Holds Udfread.setSlots
  simp only
  rw [List.getElem?_append_left (by simpa using hi), List.getElem?_set, if_pos rfl, if_pos hi]
  exact ⟨_, slots, rfl, rfl, hslot⟩

/-- `_cache_subdir` leaves the directory that it returns in its slot. -/
theorem cacheSubdir_extends {dir index : Nat} {r : Option Nat}
    (hrun : cacheSubdir I fuel udf dir index s = .ok ((r, udf'), s')) :
    Extends udf udf' ∧ ∀ sub, r = some sub → udf'.Holds dir index sub := by
  obtain ⟨d, fid, hd, hfid, hcall⟩ := cacheSubdir_cases hrun
  cases hcall with
  | notDir => exact ⟨.refl udf, nofun⟩
  | cached hdir hslot =>
    refine ⟨setSlots_extends [] hd fun _ _ h => h, fun sub hsub => ?_⟩
    cases hsub
    exact setSlots_holds [] hd hslot
  | failed => exact ⟨setSlots_extends [] hd fun _ _ h => h, nofun⟩
  | read hdir hslot =>
    have hlt : index < d.slots.length := (List.getElem?_eq_some_iff.mp hslot).1
    refine ⟨setSlots_extends _ hd fun j k hj => ?_, fun sub hsub => ?_⟩
    · rw [List.getElem?_set]
      split
      · rename_i heq
        rw [← heq, hslot] at hj
        cases hj
      · exact hj
    · cases hsub
      refine setSlots_holds _ hd ?_
      rw [List.getElem?_set, if_pos rfl, if_pos hlt]

/-- Only a directory is returned. -/
theorem cacheSubdir_some {dir index sub : Nat} {d : UdfDir} (hd : udf.dirs[dir]? = some d)
    (hrun : cacheSubdir I fuel udf dir index s = .ok ((some sub, udf'), s')) :
    ∃ fid, d.entries[index]? = some fid ∧ fid.IsDir := by
  obtain ⟨d', fid, hd', hfid, hcall⟩ := cacheSubdir_cases hrun
  obtain rfl : d = d' := Option.some.inj (hd.symm.trans hd')
  refine ⟨fid, hfid, ?_⟩
  cases hcall with
  | cached hdir | read hdir => exact hdir

/-- A slot that is filled is what `_cache_subdir` returns, and nothing is read or changed. -/
theorem cacheSubdir_hit (I : BlockInput σ) (fuel : Nat) {dir index sub : Nat} {d : UdfDir}
    {fid : UdfFileIdentifier} (hd : udf.dirs[dir]? = some d) (hfid : d.entries[index]? = some fid)
    (hdir : fid.IsDir) (hslot : udf.Holds dir index sub) (s : σ) :
    cacheSubdir I fuel udf dir index s = .ok ((some sub, udf), s) := by
  obtain ⟨x, slots, hx, hslots, hindex⟩ := hslot
  obtain rfl : d = x := Option.some.inj (hd.symm.trans hx)
  have hsame : udf.dirs.set dir { d with subdirs := some d.slots } = udf.dirs := by
    have hd' : ({ d with subdirs := some d.slots } : UdfDir) = d := by
      rw [UdfDir.slots, hslots, Option.getD_some, ← hslots]
    rw [hd']
    obtain ⟨hlt, rfl⟩ := List.getElem?_eq_some_iff.mp hd
    exact List.set_getElem_self hlt
  unfold cacheSubdir
  simp only [hd, hfid]
  rw [if_neg hdir, hsame, UdfDir.slots, hslots, Option.getD_some]
  simp only [hindex]
  rfl

/-- What the loop of `_find_file` comes to is cached, with all directories in between. -/
theorem findFileLoop_extends {toks : List Bytes} {dir : Nat} {fid₀ : Option UdfFileIdentifier}
    {r : Option (Option Nat × Option UdfFileIdentifier)}
    (hrun : findFileLoop I fuel toks udf dir fid₀ s = .ok ((r, udf'), s')) :
    Extends udf udf' ∧ ∀ k fid, r = some (some k, fid) → CachedPath udf' dir toks k := by
  induction toks generalizing udf dir fid₀ s with
  | nil =>
    cases hrun
    refine ⟨.refl udf', fun k fid h => ?_⟩
    cases h
    exact .nil dir
  | cons token rest ih =>
    obtain ⟨d, hd, hturn⟩ := findFileLoop_cases hrun
    cases hturn with
    | missing | file | fileInside => exact ⟨.refl _, nofun⟩
    | failed hscan hfid hdir hcache => exact ⟨(cacheSubdir_extends hcache).1, nofun⟩
    | down hscan hfid hdir hcache hrest =>
      obtain ⟨hext, hholds⟩ := cacheSubdir_extends hcache
      obtain ⟨hext', hpath⟩ := ih hrest
      have hboth := hext.trans hext'
      refine ⟨hboth, fun k fid h => ?_⟩
      obtain ⟨d', hd', hentries⟩ := hboth.node _ d hd
      rw [← hentries] at hscan hfid
      exact .cons hd' hscan hfid hdir (hext'.holds _ _ _ (hholds _ rfl)) (hpath k fid h)

/-- Following a cached path reads nothing. -/
theorem findFileLoop_hit (I : BlockInput σ) (fuel : Nat) {toks : List Bytes} {dir k : Nat}
    (h : CachedPath udf dir toks k) (fid₀ : Option UdfFileIdentifier) (s : σ) :
    ∃ fid, findFileLoop I fuel toks udf dir fid₀ s = .ok ((some (some k, fid), udf), s) := by
  induction h generalizing fid₀ with
  | nil dir => exact ⟨fid₀, rfl⟩
  | @cons dir index sub k d fid token rest hd hscan hfid hdir hslot _ ih =>
    obtain ⟨fid', hrest⟩ := ih (some fid)
    refine ⟨fid', ?_⟩
    have hdir' : fid.characteristic &&& charFlagDir ≠ 0 := hdir
    unfold findFileLoop
    simp only [hd, hscan, hfid]
    rw [if_pos hdir', Proc.bind_of_ok (cacheSubdir_hit I fuel hd hfid hdir hslot s)]
    exact hrest

/-! ## Runs -/

theorem lookupStep_extends {st st' : LookupState σ} {e : Lookup} (h : LookupStep I st e st') :
    Extends st.udf st'.udf := by
  cases h with
  | opendir hrun =>
    obtain ⟨-, rfl⟩ | ⟨found, hfind, -⟩ := udfreadOpendir_cases hrun
    · exact .refl _
    · exact (findFileLoop_extends hfind).1
  | opendirAt hk hrun =>
    obtain ⟨-, rfl⟩ | ⟨d, index, sub, -, -, hcache, -⟩ := udfreadOpendirAt_cases hrun
    · exact .refl _
    · exact (cacheSubdir_extends hcache).1
  | fileOpen hrun =>
    obtain ⟨-, rfl⟩ | ⟨found, s₁, hfind, -⟩ := udfreadFileOpen_cases hrun
    · exact .refl _
    · exact (findFileLoop_extends hfind).1
  | fileOpenat hk hrun =>
    obtain ⟨rfl, -⟩ := udfreadFileOpenat_cases hrun
    exact .refl _

theorem lookups_extend {st st' : LookupState σ} {es : List Lookup}
    (h : Run (LookupStep I) st es st') : Extends st.udf st'.udf :=
  h.invariant (P := fun st' => Extends st.udf st'.udf)
    (fun _ _ _ hext hstep => hext.trans (lookupStep_extends hstep)) (.refl _)

/-- Once a call has opened a directory, and whatever is looked up after it, a call for the same
directory returns the same pointer and neither reads a block nor changes the cache: over the same
input or any other one, and for any fuel. -/
theorem lookups_cached {st st' : LookupState σ} {es : List Lookup}
    (hrun : Run (LookupStep I) st es st') :
    (∀ path path' p udf₀ s₀, udfreadOpendir I fuel udf₀ path s₀ = .ok ((some p, st.udf), st.env) →
      tokens path' = tokens path → cString path' ≠ [] →
      ∀ (τ : Type) (J : BlockInput τ) fuel' t,
        udfreadOpendir J fuel' st'.udf path' t = .ok ((some p, st'.udf), t)) ∧
    (∀ q name p udf₀ s₀,
      udfreadOpendirAt I fuel udf₀ q name s₀ = .ok ((some p, st.udf), st.env) →
      ∀ (τ : Type) (J : BlockInput τ) fuel' t,
        udfreadOpendirAt J fuel' st'.udf q name t = .ok ((some p, st'.udf), t)) := by
  have hext := lookups_extend hrun
  constructor
  · intro path path' p udf₀ s₀ hopen htokens hpath τ J fuel' t
    have hisOpen₀ : udf₀.isOpen = true := by
      by_contra hclosed
      unfold udfreadOpendir at hopen
      rw [if_pos (by simp [hclosed])] at hopen
      cases hopen
    obtain ⟨hr, -⟩ | ⟨found, hfind, hr | ⟨dir, fid, rfl, hr⟩⟩ := udfreadOpendir_cases hopen
    · cases hr
    · cases hr
    · cases hr
      obtain ⟨-, hcached⟩ := findFileLoop_extends hfind
      have hisOpen : st'.udf.isOpen = true := by
        rw [(lookups_keep hrun).isOpen, (findFileLoop_keeps hfind).isOpen, hisOpen₀]
      obtain ⟨fid', hhit⟩ := findFileLoop_hit J fuel' ((hcached dir fid rfl).extends hext) none t
      unfold udfreadOpendir findFile
      rw [if_neg (by simp [hisOpen, hpath]), htokens, Proc.bind_of_ok hhit]
      rfl
  · intro q name p udf₀ s₀ hopen τ J fuel' t
    have hname : cString name ≠ [] := by
      intro hempty
      unfold udfreadOpendirAt at hopen
      rw [if_pos hempty] at hopen
      cases hopen
    obtain ⟨hr, -⟩ | ⟨d, index, sub, hd, hscan, hcache, hr⟩ := udfreadOpendirAt_cases hopen
    · cases hr
    · obtain ⟨sub, rfl, rfl⟩ := Option.map_eq_some_iff.mp hr.symm
      obtain ⟨fid, hfid, hdir⟩ := cacheSubdir_some hd hcache
      obtain ⟨hext₀, hholds⟩ := cacheSubdir_extends hcache
      have hall := hext₀.trans hext
      obtain ⟨x, hx, hentries⟩ := hall.node _ d hd
      rw [← hentries] at hscan hfid
      have hhit := cacheSubdir_hit J fuel' hx hfid hdir
        (hext.holds _ _ _ (hholds sub rfl)) t
      unfold udfreadOpendirAt
      rw [if_neg hname]
      simp only [hx, hscan]
      rw [Proc.bind_of_ok hhit]
      rfl

end

/-- Directory "d" is found in the cache, also when no block can be read any more. -/
theorem lookups_cached_subDir :
    udfreadOpendir (faultFree fun _ => none) 0 (subDirCached [aFile]) [0x2f, 0x64] () =
      .ok ((some { dir := 1, currentFile := 0 }, subDirCached [aFile]), ()) := by
  have hopen : udfreadOpendir chainedInput 3 subDirOpened [0x64] () =
      .ok ((some { dir := 1, currentFile := 0 }, subDirCached [aFile]), ()) := by
    decide +kernel
  have hroot : udfreadOpendir chainedInput 3 (subDirCached [aFile]) [0x2f] () =
      .ok ((some { dir := 0, currentFile := 0 }, subDirCached [aFile]), ()) := by
    decide +kernel
  have hrun : Run (LookupStep chainedInput)
      { udf := subDirCached [aFile], env := (), handles := [] } [.opendir [0x2f] (some [subDir])]
      { udf := subDirCached [aFile], env := (), handles := [{ dir := 0, currentFile := 0 }] } :=
    .cons (lookupStep_opendir hroot rfl) (.nil _)
  exact (lookups_cached hrun).1 [0x64] [0x2f, 0x64] _ _ _ hopen (by decide) (by decide) Unit _ 0 ()

end UdfRead
