import UdfRead.Dir
import UdfRead.Faults
import UdfRead.Lib.Simulation

/-!
# UdfRead.Lookups

Looking up directories and files through the cache. The reference resolver reads each directory of
a path from the image anew. Over an input with faults, every cached directory holds the listing that
the image gives for it, so in every run of lookups a call fails or finds what the resolver finds
(`lookups_refine`).
-/

namespace UdfRead

open CModel

/-! ## The reference resolver -/

/-- The first entry with the name. -/
def firstNamed (entries : List UdfFileIdentifier) (name : Bytes) : Option UdfFileIdentifier :=
  entries.find? fun fid => cString name == cString fid.filename

def UdfFileIdentifier.IsDir (fid : UdfFileIdentifier) : Prop :=
  fid.characteristic &&& charFlagDir ≠ 0

/-- Following the components from a listing leads to a listing. -/
inductive Resolves (image : Image) (part : UdfPartitions) :
    List UdfFileIdentifier → List Bytes → List UdfFileIdentifier → Prop where
  | nil (entries : List UdfFileIdentifier) : Resolves image part entries [] entries
  | cons {entries entries' entries'' : List UdfFileIdentifier} {name : Bytes} {names : List Bytes}
      {fid : UdfFileIdentifier} :
      firstNamed entries name = some fid → fid.IsDir → Lists image part fid.icb entries' →
      Resolves image part entries' names entries'' →
      Resolves image part entries (name :: names) entries''

/-- Following the components from a listing leads to an identifier. -/
inductive Selects (image : Image) (part : UdfPartitions) :
    List UdfFileIdentifier → List Bytes → UdfFileIdentifier → Prop where
  | last {entries : List UdfFileIdentifier} {name : Bytes} {fid : UdfFileIdentifier} :
      firstNamed entries name = some fid → Selects image part entries [name] fid
  | cons {entries entries' : List UdfFileIdentifier} {name : Bytes} {names : List Bytes}
      {dir fid : UdfFileIdentifier} :
      firstNamed entries name = some dir → dir.IsDir → Lists image part dir.icb entries' →
      Selects image part entries' names fid → Selects image part entries (name :: names) fid

/-- `P` holds of every directory that the resolver meets on the path. -/
def OnPath (image : Image) (part : UdfPartitions) (P : LongAd → Prop)
    (entries : List UdfFileIdentifier) (names : List Bytes) : Prop :=
  ∀ k fid, Selects image part entries (names.take k) fid → fid.IsDir → P fid.icb

section

variable {image : Image} {part : UdfPartitions} {P : LongAd → Prop}
  {entries entries' entries'' : List UdfFileIdentifier} {name : Bytes} {names : List Bytes}
  {fid : UdfFileIdentifier}

theorem Resolves.snoc (h : Resolves image part entries names entries')
    (hname : firstNamed entries' name = some fid) (hdir : fid.IsDir)
    (hlist : Lists image part fid.icb entries'') :
    Resolves image part entries (names ++ [name]) entries'' := by
  induction h with
  | nil entries => exact .cons hname hdir hlist (.nil _)
  | cons hfirst hdir' hlist' _ ih => exact .cons hfirst hdir' hlist' (ih hname)

theorem Selects.snoc (h : Resolves image part entries names entries')
    (hname : firstNamed entries' name = some fid) :
    Selects image part entries (names ++ [name]) fid := by
  induction h with
  | nil entries => exact .last hname
  | cons hfirst hdir hlist _ ih => exact .cons hfirst hdir hlist (ih hname)

theorem OnPath.head (h : OnPath image part P entries (name :: names))
    (hname : firstNamed entries name = some fid) (hdir : fid.IsDir) : P fid.icb :=
  h 1 fid (.last hname) hdir

theorem OnPath.tail (h : OnPath image part P entries (name :: names))
    (hname : firstNamed entries name = some fid) (hdir : fid.IsDir)
    (hlist : Lists image part fid.icb entries') : OnPath image part P entries' names :=
  fun k fid' hsel hdir' => h (k + 1) fid' (.cons hname hdir hlist hsel) hdir'

theorem OnPath.last (h : OnPath image part P entries (names ++ [name]))
    (hres : Resolves image part entries names entries')
    (hname : firstNamed entries' name = some fid) (hdir : fid.IsDir) : P fid.icb := by
  refine h (names.length + 1) fid ?_ hdir
  rw [List.take_of_length_le (by simp)]
  exact .snoc hres hname

theorem scanDir_first {index : Nat} (h : scanDir entries name = some index)
    (hfid : entries[index]? = some fid) : firstNamed entries name = some fid := by
  unfold scanDir at h
  rw [firstNamed, List.find?_eq_bind_findIdx?_getElem?, h]
  exact hfid

/-- Reading the directory from the image ends, the mirror copies of what is read equal the primary
ones, and no cut of its chain can change its listing. -/
structure Steady (image : Image) (part : UdfPartitions) (icb : LongAd) : Prop where
  ends : ReadEnds image part icb
  copies : ∀ loc, DirReads image part icb loc → ExtentAgrees image part loc
  plain : NoPointerFirst image part icb

/-! ## The cache -/

/-- Directory `i` of the heap has the listing. -/
def Udfread.Node (udf : Udfread) (i : Nat) (entries : List UdfFileIdentifier) : Prop :=
  ∃ d, udf.dirs[i]? = some d ∧ d.entries = entries

/-- Directory `k` of the heap is the sub-directory at entry `j` of a listing, as the image has it. -/
def CachedAt (image : Image) (udf : Udfread) (entries : List UdfFileIdentifier) (j k : Nat) : Prop :=
  ∃ (fid : UdfFileIdentifier) (sub : List UdfFileIdentifier), entries[j]? = some fid ∧ fid.IsDir ∧
    udf.Node k sub ∧ Lists image udf.part fid.icb sub

/-- Each cached sub-directory holds the listing that the image gives for its identifier. -/
structure CacheInv (image : Image) (root : List UdfFileIdentifier) (udf : Udfread) : Prop where
  root : udf.Node 0 root
  cached : ∀ (i : Nat) (d : UdfDir) (slots : List (Option Nat)), udf.dirs[i]? = some d →
    d.subdirs = some slots → ∀ j k, slots[j]? = some (some k) → CachedAt image udf d.entries j k

/-- Lookups add to the cache and change nothing else. -/
structure Grows (udf udf' : Udfread) : Prop where
  part : udf'.part = udf.part
  node : ∀ i entries, udf.Node i entries → udf'.Node i entries

variable {root : List UdfFileIdentifier} {udf udf' : Udfread} {dir index : Nat} {d : UdfDir}

theorem Grows.refl (udf : Udfread) : Grows udf udf := ⟨rfl, fun _ _ h => h⟩

theorem Grows.trans {udf'' : Udfread} (h : Grows udf udf') (h' : Grows udf' udf'') :
    Grows udf udf'' :=
  ⟨h'.part.trans h.part, fun i entries hn => h'.node i entries (h.node i entries hn)⟩

theorem CachedAt.grows {j k : Nat} (h : CachedAt image udf entries j k) (hg : Grows udf udf') :
    CachedAt image udf' entries j k := by
  obtain ⟨fid, sub, hfid, hisdir, hsub, hlist⟩ := h
  exact ⟨fid, sub, hfid, hisdir, hg.node k sub hsub, by rwa [hg.part]⟩

/-- The handle after a directory has got new slots, with new directories behind the others. -/
def Udfread.setSlots (udf : Udfread) (dir : Nat) (d : UdfDir) (slots : List (Option Nat))
    (new : List UdfDir) : Udfread :=
  { udf with dirs := udf.dirs.set dir { d with subdirs := some slots } ++ new }

theorem setSlots_node {slots : List (Option Nat)} {new : List UdfDir} (hd : udf.dirs[dir]? = some d)
    {i : Nat} {x : UdfDir} (h : udf.dirs[i]? = some x) :
    (udf.setSlots dir d slots new).Node i x.entries := by
  have hi : i < udf.dirs.length := (List.getElem?_eq_some_iff.mp h).1
  unfold Udfread.Node Udfread.setSlots
  simp only
  rw [List.getElem?_append_left (by simpa using hi), List.getElem?_set]
  by_cases hdir : dir = i
  · subst hdir
    rw [hd] at h
    cases h
    rw [if_pos rfl, if_pos hi]
    exact ⟨_, rfl, rfl⟩
  · rw [if_neg hdir]
    exact ⟨x, h, rfl⟩

theorem setSlots_grows (slots : List (Option Nat)) (new : List UdfDir)
    (hd : udf.dirs[dir]? = some d) : Grows udf (udf.setSlots dir d slots new) := by
  refine ⟨rfl, ?_⟩
  rintro i entries ⟨x, hx, rfl⟩
  exact setSlots_node hd hx

theorem setSlots_new (udf : Udfread) (dir : Nat) (d : UdfDir) (slots : List (Option Nat))
    (entries : List UdfFileIdentifier) :
    (udf.setSlots dir d slots [{ entries, subdirs := none }]).Node udf.dirs.length entries := by
  unfold Udfread.Node Udfread.setSlots
  simp only
  rw [List.getElem?_append_right (by simp), List.length_set, Nat.sub_self]
  exact ⟨_, rfl, rfl⟩

theorem setSlots_inv {slots : List (Option Nat)} {new : List UdfDir}
    (h : CacheInv image root udf) (hd : udf.dirs[dir]? = some d)
    (hnew : ∀ x ∈ new, x.subdirs = none)
    (hslots : ∀ j k, slots[j]? = some (some k) →
      CachedAt image (udf.setSlots dir d slots new) d.entries j k) :
    CacheInv image root (udf.setSlots dir d slots new) := by
  have hgrows : Grows udf (udf.setSlots dir d slots new) := setSlots_grows _ _ hd
  refine ⟨hgrows.node 0 root h.root, ?_⟩
  intro i x s hx hs j k hj
  have hlen : (udf.dirs.set dir { d with subdirs := some slots }).length = udf.dirs.length := by simp
  rcases Nat.lt_or_ge i udf.dirs.length with hi | hi
  · have hx' : (udf.dirs.set dir { d with subdirs := some slots })[i]? = some x := by
      rw [← hx, Udfread.setSlots, List.getElem?_append_left (by omega)]
    rw [List.getElem?_set] at hx'
    by_cases hdir : dir = i
    · subst hdir
      rw [if_pos rfl, if_pos hi] at hx'
      cases hx'
      cases hs
      exact hslots j k hj
    · rw [if_neg hdir] at hx'
      exact (h.cached i x s hx' hs j k hj).grows hgrows
  · have hx' : new[i - udf.dirs.length]? = some x := by
      rw [← hx, Udfread.setSlots, List.getElem?_append_right (by omega), hlen]
    rw [hnew x (List.mem_of_getElem? hx')] at hs
    cases hs

/-- The slots of a directory that are filled. -/
theorem slots_cached (h : CacheInv image root udf) (hd : udf.dirs[dir]? = some d) {j k : Nat}
    (hj : d.slots[j]? = some (some k)) : CachedAt image udf d.entries j k := by
  unfold UdfDir.slots at hj
  cases hs : d.subdirs with
  | none =>
    rw [hs, Option.getD_none, List.getElem?_replicate] at hj
    split at hj
    · cases hj
    · cases hj
  | some slots =>
    rw [hs, Option.getD_some] at hj
    exact h.cached dir d slots hd hs j k hj

variable {σ : Type} {I : BlockInput σ} {s s' : σ} {fuel : Nat}

/-! ## What the calls can do -/

/-- The ways `_cache_subdir` returns at entry `fid` of directory `d`. -/
inductive CacheCall (I : BlockInput σ) (fuel : Nat) (udf : Udfread) (dir index : Nat) (d : UdfDir)
    (fid : UdfFileIdentifier) (s : σ) : Option Nat → Udfread → σ → Prop where
  | notDir : ¬ fid.IsDir → CacheCall I fuel udf dir index d fid s none udf s
  | cached {k : Nat} : fid.IsDir → d.slots[index]? = some (some k) →
      CacheCall I fuel udf dir index d fid s (some k) (udf.setSlots dir d d.slots []) s
  | failed {result : Int} {entries : List UdfFileIdentifier} {s' : σ} : fid.IsDir →
      d.slots[index]? = some none →
      udfReadDir I fuel udf.part fid.icb [] s = .ok ((result, entries), s') → result < 0 →
      CacheCall I fuel udf dir index d fid s none (udf.setSlots dir d d.slots []) s'
  | read {result : Int} {entries : List UdfFileIdentifier} {s' : σ} : fid.IsDir →
      d.slots[index]? = some none →
      udfReadDir I fuel udf.part fid.icb [] s = .ok ((result, entries), s') → ¬ result < 0 →
      CacheCall I fuel udf dir index d fid s (some udf.dirs.length)
        (udf.setSlots dir d (d.slots.set index (some udf.dirs.length))
          [{ entries, subdirs := none }]) s'

theorem cacheSubdir_cases {r : Option Nat}
    (hrun : cacheSubdir I fuel udf dir index s = .ok ((r, udf'), s')) :
    ∃ d fid, udf.dirs[dir]? = some d ∧ d.entries[index]? = some fid ∧
      CacheCall I fuel udf dir index d fid s r udf' s' := by
  unfold cacheSubdir at hrun
  cases hd : udf.dirs[dir]? with
  | none =>
    rw [hd] at hrun
    cases hrun
  | some d =>
    simp only [hd] at hrun
    cases hfid : d.entries[index]? with
    | none =>
      rw [hfid] at hrun
      cases hrun
    | some fid =>
      simp only [hfid] at hrun
      refine ⟨d, fid, rfl, hfid, ?_⟩
      by_cases hdir : fid.characteristic &&& charFlagDir = 0
      · rw [if_pos hdir] at hrun
        cases hrun
        exact .notDir fun h => h hdir
      · rw [if_neg hdir] at hrun
        have hset : ({ udf with dirs := udf.dirs.set dir { d with subdirs := some d.slots } } :
            Udfread) = udf.setSlots dir d d.slots [] := by
          unfold Udfread.setSlots
          rw [List.append_nil]
        rw [hset] at hrun
        cases hslot : d.slots[index]? with
        | none =>
          rw [hslot] at hrun
          cases hrun
        | some slot =>
          rw [hslot] at hrun
          cases slot with
          | some k =>
            cases hrun
            exact .cached hdir hslot
          | none =>
            obtain ⟨⟨result, entries⟩, s₁, hread, hrun⟩ := Proc.bind_eq_ok.mp hrun
            simp only at hrun
            by_cases hfail : result < 0
            · rw [if_pos hfail] at hrun
              cases hrun
              exact .failed hdir hslot hread hfail
            · rw [if_neg hfail] at hrun
              simp only [List.length_set, List.set_set] at hrun
              cases hrun
              exact .read hdir hslot hread hfail

/-- The ways a turn of the loop of `_find_file` returns at directory `d`. -/
inductive FindTurn (I : BlockInput σ) (fuel : Nat) (udf : Udfread) (dir : Nat) (d : UdfDir)
    (token : Bytes) (rest : List Bytes) (s : σ) :
    Option (Option Nat × Option UdfFileIdentifier) → Udfread → σ → Prop where
  | missing : scanDir d.entries token = none → FindTurn I fuel udf dir d token rest s none udf s
  | file {index : Nat} {fid : UdfFileIdentifier} : scanDir d.entries token = some index →
      d.entries[index]? = some fid → ¬ fid.IsDir → rest = [] →
      FindTurn I fuel udf dir d token rest s (some (none, some fid)) udf s
  | fileInside {index : Nat} {fid : UdfFileIdentifier} : scanDir d.entries token = some index →
      d.entries[index]? = some fid → ¬ fid.IsDir → rest ≠ [] →
      FindTurn I fuel udf dir d token rest s none udf s
  | failed {index : Nat} {fid : UdfFileIdentifier} {udf' : Udfread} {s' : σ} :
      scanDir d.entries token = some index → d.entries[index]? = some fid → fid.IsDir →
      cacheSubdir I fuel udf dir index s = .ok ((none, udf'), s') →
      FindTurn I fuel udf dir d token rest s none udf' s'
  | down {index sub : Nat} {fid : UdfFileIdentifier} {udf₁ udf' : Udfread} {s₁ s' : σ}
      {r : Option (Option Nat × Option UdfFileIdentifier)} : scanDir d.entries token = some index →
      d.entries[index]? = some fid → fid.IsDir →
      cacheSubdir I fuel udf dir index s = .ok ((some sub, udf₁), s₁) →
      findFileLoop I fuel rest udf₁ sub (some fid) s₁ = .ok ((r, udf'), s') →
      FindTurn I fuel udf dir d token rest s r udf' s'

theorem findFileLoop_cases {token : Bytes} {rest : List Bytes} {fid₀ : Option UdfFileIdentifier}
    {r : Option (Option Nat × Option UdfFileIdentifier)}
    (hrun : findFileLoop I fuel (token :: rest) udf dir fid₀ s = .ok ((r, udf'), s')) :
    ∃ d, udf.dirs[dir]? = some d ∧ FindTurn I fuel udf dir d token rest s r udf' s' := by
  unfold findFileLoop at hrun
  cases hd : udf.dirs[dir]? with
  | none =>
    rw [hd] at hrun
    cases hrun
  | some d =>
    simp only [hd] at hrun
    refine ⟨d, rfl, ?_⟩
    cases hscan : scanDir d.entries token with
    | none =>
      rw [hscan] at hrun
      cases hrun
      exact .missing hscan
    | some index =>
      rw [hscan] at hrun
      cases hfid : d.entries[index]? with
      | none =>
        simp only [hfid] at hrun
        cases hrun
      | some fid =>
        simp only [hfid] at hrun
        by_cases hdir : fid.characteristic &&& charFlagDir = 0
        · simp only [hdir, ne_eq, not_true, if_false] at hrun
          by_cases hrest : rest = []
          · rw [if_neg (not_not_intro hrest)] at hrun
            cases hrun
            exact .file hscan hfid (fun h => h hdir) hrest
          · rw [if_pos hrest] at hrun
            cases hrun
            exact .fileInside hscan hfid (fun h => h hdir) hrest
        · simp only [hdir, ne_eq, not_false_iff, if_true] at hrun
          obtain ⟨⟨sub, udf₁⟩, s₁, hcache, hrun⟩ := Proc.bind_eq_ok.mp hrun
          cases sub with
          | none =>
            cases hrun
            exact .failed hscan hfid hdir hcache
          | some sub => exact .down hscan hfid hdir hcache hrun

/-! ## The cache stays right -/

/-- `_cache_subdir` fails, or finds the listing of the image, if it reads no other one. -/
theorem cacheSubdir_reads (h : CacheInv image root udf) (hd : udf.dirs[dir]? = some d)
    (hfid : d.entries[index]? = some fid)
    (hreads : fid.IsDir → ∀ {result : Int} {entries : List UdfFileIdentifier} {s' : σ},
      udfReadDir I fuel udf.part fid.icb [] s = .ok ((result, entries), s') → 0 ≤ result →
      Lists image udf.part fid.icb entries)
    {r : Option Nat} (hrun : cacheSubdir I fuel udf dir index s = .ok ((r, udf'), s')) :
    CacheInv image root udf' ∧ Grows udf udf' ∧ ∀ k, r = some k → fid.IsDir ∧ ∃ sub,
      udf'.Node k sub ∧ Lists image udf.part fid.icb sub := by
  obtain ⟨d', fid', hd', hfid', hcall⟩ := cacheSubdir_cases hrun
  obtain rfl : d = d' := Option.some.inj (hd.symm.trans hd')
  obtain rfl : fid = fid' := Option.some.inj (hfid.symm.trans hfid')
  have hinv : CacheInv image root (udf.setSlots dir d d.slots []) :=
    setSlots_inv h hd (by simp) fun j k hj => (slots_cached h hd hj).grows (setSlots_grows _ _ hd)
  cases hcall with
  | notDir hdir => exact ⟨h, .refl udf, nofun⟩
  | @cached k hdir hslot =>
    refine ⟨hinv, setSlots_grows _ _ hd, fun k' hk => ?_⟩
    cases hk
    obtain ⟨fid', sub, hfid', hisdir, hsub, hlist⟩ := slots_cached h hd hslot
    rw [hfid] at hfid'
    cases hfid'
    exact ⟨hisdir, sub, (setSlots_grows _ _ hd).node k sub hsub, hlist⟩
  | failed hdir hslot hread hfail => exact ⟨hinv, setSlots_grows _ _ hd, nofun⟩
  | @read result entries _ hdir hslot hread hok =>
    have hlist := hreads hdir hread (by omega)
    have hgrows := setSlots_grows (d.slots.set index (some udf.dirs.length))
      [{ entries, subdirs := none }] hd
    have hnode := setSlots_new udf dir d (d.slots.set index (some udf.dirs.length)) entries
    refine ⟨setSlots_inv h hd (by simp) fun j k hj => ?_, hgrows, fun k hk => ?_⟩
    · rw [List.getElem?_set] at hj
      by_cases hindex : index = j
      · subst hindex
        rw [if_pos rfl] at hj
        split at hj
        · cases hj
          exact ⟨fid, entries, hfid, hdir, hnode, by rwa [hgrows.part]⟩
        · cases hj
      · rw [if_neg hindex] at hj
        exact (slots_cached h hd hj).grows hgrows
    · cases hk
      exact ⟨hdir, entries, hnode, hlist⟩

/-- `_cache_subdir` fails, or finds the listing of the image. -/
theorem cacheSubdir_inv (hI : I.Faults image)
    (h : CacheInv image root udf) (hd : udf.dirs[dir]? = some d)
    (hfid : d.entries[index]? = some fid)
    (hsteady : fid.IsDir → Steady image udf.part fid.icb)
    {r : Option Nat} (hrun : cacheSubdir I fuel udf dir index s = .ok ((r, udf'), s')) :
    CacheInv image root udf' ∧ Grows udf udf' ∧ ∀ k, r = some k → fid.IsDir ∧ ∃ sub,
      udf'.Node k sub ∧ Lists image udf.part fid.icb sub := by
  refine cacheSubdir_reads h hd hfid (fun hdir _ _ _ hread hok => ?_) hrun
  have hdirSteady := hsteady hdir
  exact udfReadDir_faulty hI hdirSteady.copies hdirSteady.ends hdirSteady.plain hread hok

/-- The loop of `_find_file` fails, or ends where the resolver ends. -/
theorem findFileLoop_inv (hI : I.Faults image) {toks : List Bytes} {fid₀ : Option UdfFileIdentifier}
    (h : CacheInv image root udf) (hnode : udf.Node dir entries)
    (hsteady : OnPath image udf.part (Steady image udf.part) entries toks)
    {r : Option (Option Nat × Option UdfFileIdentifier)}
    (hrun : findFileLoop I fuel toks udf dir fid₀ s = .ok ((r, udf'), s')) :
    CacheInv image root udf' ∧ Grows udf udf' ∧
      (∀ k fid, r = some (some k, fid) →
        ∃ sub, udf'.Node k sub ∧ Resolves image udf.part entries toks sub) ∧
      (∀ k fid, r = some (k, some fid) → toks ≠ [] → Selects image udf.part entries toks fid) := by
  induction toks generalizing udf dir entries fid₀ s with
  | nil =>
    cases hrun
    refine ⟨h, .refl _, fun k fid hk => ?_, fun _ _ _ hne => absurd rfl hne⟩
    cases hk
    exact ⟨entries, hnode, .nil entries⟩
  | cons token rest ih =>
    obtain ⟨d, hd, rfl⟩ := hnode
    obtain ⟨d', hd', hturn⟩ := findFileLoop_cases hrun
    obtain rfl : d = d' := Option.some.inj (hd.symm.trans hd')
    cases hturn with
    | missing hscan => exact ⟨h, .refl _, nofun, nofun⟩
    | file hscan hfid hdir hrest =>
      subst hrest
      refine ⟨h, .refl _, nofun, fun k fid' hk _ => ?_⟩
      cases hk
      exact .last (scanDir_first hscan hfid)
    | fileInside hscan hfid hdir hrest => exact ⟨h, .refl _, nofun, nofun⟩
    | failed hscan hfid hdir hcache =>
      obtain ⟨hinv, hgrows, -⟩ := cacheSubdir_inv hI h hd hfid
        (fun hisdir => hsteady.head (scanDir_first hscan hfid) hisdir) hcache
      exact ⟨hinv, hgrows, nofun, nofun⟩
    | @down index sub fid udf₁ _ _ _ _ hscan hfid hdir hcache hrun =>
      have hfirst := scanDir_first hscan hfid
      obtain ⟨hinv, hgrows, hsub⟩ := cacheSubdir_inv hI h hd hfid
        (fun hisdir => hsteady.head hfirst hisdir) hcache
      obtain ⟨hisdir, listing, hnode, hlist⟩ := hsub sub rfl
      have htail := hsteady.tail hfirst hisdir hlist
      rw [← hgrows.part] at htail
      obtain ⟨hinv', hgrows', hresolves, hselects⟩ := ih hinv hnode htail hrun
      rw [hgrows.part] at hresolves hselects
      refine ⟨hinv', hgrows.trans hgrows', fun k fid' hk => ?_, fun k fid' hk _ => ?_⟩
      · obtain ⟨sub', hnode', hres⟩ := hresolves k fid' hk
        exact ⟨sub', hnode', .cons hfirst hisdir hlist hres⟩
      · cases rest with
        | nil =>
          cases hrun
          cases hk
          exact .last hfirst
        | cons t ts => exact .cons hfirst hisdir hlist (hselects k fid' hk (by simp))

end

end UdfRead
