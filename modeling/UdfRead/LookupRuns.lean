import UdfRead.Lookups
import UdfRead.MinimalVolume

/-!
# UdfRead.LookupRuns

Runs of lookups on an opened volume. The program keeps a handle and a cache, the resolver only the
components that lead to each directory opened so far. Each run of the program is one of the
resolver, as long as no call looks up a directory whose chain, cut off, would show a continuation
descriptor in front (`lookups_refine`).
-/

namespace UdfRead

open CModel

/-- A call, with what is seen of its result: the listing of the directory, or the identifier of the
file. Directories opened so far are numbered. -/
inductive Lookup where
  | opendir (path : Bytes) (r : Option (List UdfFileIdentifier))
  | opendirAt (k : Nat) (name : Bytes) (r : Option (List UdfFileIdentifier))
  | fileOpen (path : Bytes) (r : Option UdfFileIdentifier)
  | fileOpenat (k : Nat) (name : Bytes) (r : Option UdfFileIdentifier)

def Lookup.Fails : Lookup → Prop
  | opendir _ r => r = none
  | opendirAt _ _ r => r = none
  | fileOpen _ r => r = none
  | fileOpenat _ _ r => r = none

/-- The entries that a directory handle goes through. -/
def Udfread.listing (udf : Udfread) (p : UdfDirHandle) : List UdfFileIdentifier :=
  match udf.dirs[p.dir]? with
  | some d => d.entries
  | none => []

structure LookupState (σ : Type) where
  udf : Udfread
  env : σ
  handles : List UdfDirHandle

inductive LookupStep {σ : Type} (I : BlockInput σ) :
    LookupState σ → Lookup → LookupState σ → Prop where
  | opendir {st : LookupState σ} {fuel : Nat} {path : Bytes} {r : Option UdfDirHandle}
      {udf : Udfread} {env : σ} :
      udfreadOpendir I fuel st.udf path st.env = .ok ((r, udf), env) →
      LookupStep I st (.opendir path (r.map udf.listing))
        { udf, env, handles := st.handles ++ r.toList }
  | opendirAt {st : LookupState σ} {fuel k : Nat} {p : UdfDirHandle} {name : Bytes}
      {r : Option UdfDirHandle} {udf : Udfread} {env : σ} :
      st.handles[k]? = some p →
      udfreadOpendirAt I fuel st.udf p name st.env = .ok ((r, udf), env) →
      LookupStep I st (.opendirAt k name (r.map udf.listing))
        { udf, env, handles := st.handles ++ r.toList }
  | fileOpen {st : LookupState σ} {fuel : Nat} {path : Bytes}
      {r : Option (UdfFileIdentifier × UdfFile)} {udf : Udfread} {env : σ} :
      udfreadFileOpen I fuel st.udf path st.env = .ok ((r, udf), env) →
      LookupStep I st (.fileOpen path (r.map Prod.fst)) { st with udf, env }
  | fileOpenat {st : LookupState σ} {fuel k : Nat} {p : UdfDirHandle} {name : Bytes}
      {r : Option (UdfFileIdentifier × UdfFile)} {udf : Udfread} {env : σ} :
      st.handles[k]? = some p →
      udfreadFileOpenat I fuel st.udf p name st.env = .ok ((r, udf), env) →
      LookupStep I st (.fileOpenat k name (r.map Prod.fst)) { st with udf, env }

/-- The resolver answers from the image, or the call fails. -/
inductive ResolverStep (image : Image) (part : UdfPartitions) (root : List UdfFileIdentifier) :
    List (List Bytes) → Lookup → List (List Bytes) → Prop where
  | failed {paths : List (List Bytes)} {e : Lookup} :
      e.Fails → ResolverStep image part root paths e paths
  | opendir {paths : List (List Bytes)} {path : Bytes} {entries : List UdfFileIdentifier} :
      Resolves image part root (tokens path) entries →
      ResolverStep image part root paths (.opendir path (some entries)) (paths ++ [tokens path])
  | opendirAt {paths : List (List Bytes)} {k : Nat} {names : List Bytes} {name : Bytes}
      {entries : List UdfFileIdentifier} :
      paths[k]? = some names → Resolves image part root (names ++ [name]) entries →
      ResolverStep image part root paths (.opendirAt k name (some entries))
        (paths ++ [names ++ [name]])
  | fileOpen {paths : List (List Bytes)} {path : Bytes} {fid : UdfFileIdentifier} :
      Selects image part root (tokens path) fid →
      ResolverStep image part root paths (.fileOpen path (some fid)) paths
  | fileOpenat {paths : List (List Bytes)} {k : Nat} {names : List Bytes} {name : Bytes}
      {fid : UdfFileIdentifier} :
      paths[k]? = some names → Selects image part root (names ++ [name]) fid →
      ResolverStep image part root paths (.fileOpenat k name (some fid)) paths

/-- The directories that the call looks up are steady. -/
def SteadyCall {σ : Type} (image : Image) (root : List UdfFileIdentifier) (st : LookupState σ) :
    Lookup → Prop
  | .opendir path _ => OnPath image st.udf.part (Steady image st.udf.part) root (tokens path)
  | .opendirAt k name _ => ∀ p fid, st.handles[k]? = some p →
      firstNamed (st.udf.listing p) name = some fid → fid.IsDir → Steady image st.udf.part fid.icb
  | .fileOpen path _ => OnPath image st.udf.part (Steady image st.udf.part) root (tokens path)
  | .fileOpenat _ _ _ => True

def SteadyStep {σ : Type} (I : BlockInput σ) (image : Image) (root : List UdfFileIdentifier)
    (st : LookupState σ) (e : Lookup) (st' : LookupState σ) : Prop :=
  LookupStep I st e st' ∧ SteadyCall image root st e

section

variable {σ : Type} {I : BlockInput σ} {image : Image} {root entries : List UdfFileIdentifier}
  {udf udf' : Udfread} {p : UdfDirHandle} {s s' : σ} {fuel : Nat} {path name : Bytes}

theorem listing_node (h : udf.Node p.dir entries) : udf.listing p = entries := by
  obtain ⟨d, hd, rfl⟩ := h
  rw [Udfread.listing, hd]

/-! ## The calls -/

theorem udfreadOpendir_cases {r : Option UdfDirHandle}
    (hrun : udfreadOpendir I fuel udf path s = .ok ((r, udf'), s')) :
    (r = none ∧ udf' = udf) ∨ ∃ found, findFile I fuel udf path s = .ok ((found, udf'), s') ∧
      (r = none ∨ ∃ dir fid, found = some (some dir, fid) ∧ r = some { dir, currentFile := 0 }) := by
  unfold udfreadOpendir at hrun
  split at hrun
  · cases hrun
    exact .inl ⟨rfl, rfl⟩
  · obtain ⟨⟨found, udf₁⟩, s₁, hfind, hrun⟩ := Proc.bind_eq_ok.mp hrun
    rcases found with _ | ⟨_ | dir, fid⟩
    · cases hrun
      exact .inr ⟨_, hfind, .inl rfl⟩
    · cases hrun
      exact .inr ⟨_, hfind, .inl rfl⟩
    · cases hrun
      exact .inr ⟨_, hfind, .inr ⟨dir, fid, rfl, rfl⟩⟩

theorem udfreadOpendirAt_cases {r : Option UdfDirHandle}
    (hrun : udfreadOpendirAt I fuel udf p name s = .ok ((r, udf'), s')) :
    (r = none ∧ udf' = udf) ∨ ∃ d index sub, udf.dirs[p.dir]? = some d ∧
      scanDir d.entries name = some index ∧
      cacheSubdir I fuel udf p.dir index s = .ok ((sub, udf'), s') ∧
      r = sub.map fun dir => { dir, currentFile := 0 } := by
  unfold udfreadOpendirAt at hrun
  split at hrun
  · cases hrun
    exact .inl ⟨rfl, rfl⟩
  · cases hd : udf.dirs[p.dir]? with
    | none =>
      rw [hd] at hrun
      cases hrun
    | some d =>
      simp only [hd] at hrun
      cases hscan : scanDir d.entries name with
      | none =>
        rw [hscan] at hrun
        cases hrun
        exact .inl ⟨rfl, rfl⟩
      | some index =>
        simp only [hscan] at hrun
        obtain ⟨⟨sub, udf₁⟩, s₁, hcache, hrun⟩ := Proc.bind_eq_ok.mp hrun
        cases sub with
        | none =>
          cases hrun
          exact .inr ⟨d, index, none, rfl, hscan, hcache, rfl⟩
        | some dir =>
          cases hrun
          exact .inr ⟨d, index, some dir, rfl, hscan, hcache, rfl⟩

theorem udfreadFileOpen_cases {r : Option (UdfFileIdentifier × UdfFile)}
    (hrun : udfreadFileOpen I fuel udf path s = .ok ((r, udf'), s')) :
    (r = none ∧ udf' = udf) ∨ ∃ found s₁, findFile I fuel udf path s = .ok ((found, udf'), s₁) ∧
      (r = none ∨ ∃ dir fi file, found = some (dir, some fi) ∧
        fileOpen I fuel udf' fi s₁ = .ok (file, s') ∧ r = file.map (fi, ·)) := by
  unfold udfreadFileOpen at hrun
  split at hrun
  · cases hrun
    exact .inl ⟨rfl, rfl⟩
  · obtain ⟨⟨found, udf₁⟩, s₁, hfind, hrun⟩ := Proc.bind_eq_ok.mp hrun
    rcases found with _ | ⟨dir, _ | fi⟩
    · cases hrun
      exact .inr ⟨_, _, hfind, .inl rfl⟩
    · cases hrun
      exact .inr ⟨_, _, hfind, .inl rfl⟩
    · obtain ⟨file, s₂, hopen, hrun⟩ := Proc.bind_eq_ok.mp hrun
      cases hrun
      exact .inr ⟨_, _, hfind, .inr ⟨dir, fi, file, rfl, hopen, rfl⟩⟩

theorem udfreadFileOpenat_cases {r : Option (UdfFileIdentifier × UdfFile)}
    (hrun : udfreadFileOpenat I fuel udf p name s = .ok ((r, udf'), s')) :
    udf' = udf ∧ (r = none ∨ ∃ d index fi file, udf.dirs[p.dir]? = some d ∧
      scanDir d.entries name = some index ∧ d.entries[index]? = some fi ∧
      fileOpen I fuel udf fi s = .ok (file, s') ∧ r = file.map (fi, ·)) := by
  unfold udfreadFileOpenat at hrun
  split at hrun
  · cases hrun
    exact ⟨rfl, .inl rfl⟩
  · cases hd : udf.dirs[p.dir]? with
    | none =>
      rw [hd] at hrun
      cases hrun
    | some d =>
      simp only [hd] at hrun
      cases hscan : scanDir d.entries name with
      | none =>
        rw [hscan] at hrun
        cases hrun
        exact ⟨rfl, .inl rfl⟩
      | some index =>
        simp only [hscan] at hrun
        cases hfid : d.entries[index]? with
        | none =>
          rw [hfid] at hrun
          cases hrun
        | some fi =>
          simp only [hfid] at hrun
          obtain ⟨file, s₁, hopen, hrun⟩ := Proc.bind_eq_ok.mp hrun
          cases hrun
          exact ⟨rfl, .inr ⟨d, index, fi, file, rfl, hscan, hfid, hopen, rfl⟩⟩

theorem udfreadOpendir_inv (hI : I.Faults image) (h : CacheInv image root udf)
    (hsteady : OnPath image udf.part (Steady image udf.part) root (tokens path))
    {r : Option UdfDirHandle} (hrun : udfreadOpendir I fuel udf path s = .ok ((r, udf'), s')) :
    CacheInv image root udf' ∧ Grows udf udf' ∧ ∀ p, r = some p →
      ∃ sub, udf'.Node p.dir sub ∧ Resolves image udf.part root (tokens path) sub := by
  obtain ⟨rfl, rfl⟩ | ⟨found, hfind, hr⟩ := udfreadOpendir_cases hrun
  · exact ⟨h, .refl _, nofun⟩
  · obtain ⟨hinv, hgrows, hresolves, -⟩ := findFileLoop_inv hI h h.root hsteady hfind
    refine ⟨hinv, hgrows, fun p hp => ?_⟩
    subst hp
    obtain hr | ⟨dir, fid, hfound, hr⟩ := hr
    · cases hr
    · cases hr
      exact hresolves dir fid hfound

theorem udfreadOpendirAt_inv (hI : I.Faults image) (h : CacheInv image root udf)
    (hnode : udf.Node p.dir entries)
    (hsteady : ∀ fid, firstNamed entries name = some fid → fid.IsDir →
      Steady image udf.part fid.icb)
    {r : Option UdfDirHandle} (hrun : udfreadOpendirAt I fuel udf p name s = .ok ((r, udf'), s')) :
    CacheInv image root udf' ∧ Grows udf udf' ∧ ∀ p', r = some p' →
      ∃ fid sub, firstNamed entries name = some fid ∧ fid.IsDir ∧ udf'.Node p'.dir sub ∧
        Lists image udf.part fid.icb sub := by
  obtain ⟨rfl, rfl⟩ | ⟨d, index, sub, hd, hscan, hcache, rfl⟩ := udfreadOpendirAt_cases hrun
  · exact ⟨h, .refl _, nofun⟩
  · obtain ⟨d', fid, hd', hfid, -⟩ := cacheSubdir_cases hcache
    obtain rfl : d = d' := Option.some.inj (hd.symm.trans hd')
    have hentries : d.entries = entries := by
      obtain ⟨x, hx, hentries⟩ := hnode
      rwa [← Option.some.inj (hd.symm.trans hx)] at hentries
    subst hentries
    have hfirst := scanDir_first hscan hfid
    obtain ⟨hinv, hgrows, hsub⟩ := cacheSubdir_inv hI h hd hfid (hsteady fid hfirst) hcache
    refine ⟨hinv, hgrows, fun p' hp => ?_⟩
    obtain ⟨k, rfl, rfl⟩ := Option.map_eq_some_iff.mp hp
    obtain ⟨hisdir, listing, hnode, hlist⟩ := hsub k rfl
    exact ⟨fid, listing, hfirst, hisdir, hnode, hlist⟩

theorem udfreadFileOpen_inv (hI : I.Faults image) (h : CacheInv image root udf)
    (hsteady : OnPath image udf.part (Steady image udf.part) root (tokens path))
    {r : Option (UdfFileIdentifier × UdfFile)}
    (hrun : udfreadFileOpen I fuel udf path s = .ok ((r, udf'), s')) :
    CacheInv image root udf' ∧ Grows udf udf' ∧ ∀ fid f, r = some (fid, f) →
      Selects image udf.part root (tokens path) fid := by
  obtain ⟨rfl, rfl⟩ | ⟨found, s₁, hfind, hr⟩ := udfreadFileOpen_cases hrun
  · exact ⟨h, .refl _, nofun⟩
  · obtain ⟨hinv, hgrows, -, hselects⟩ := findFileLoop_inv hI h h.root hsteady hfind
    refine ⟨hinv, hgrows, fun fid f hopened => ?_⟩
    subst hopened
    obtain hr | ⟨dir, fi, file, hfound, -, hr⟩ := hr
    · cases hr
    · obtain ⟨file, _, hfile⟩ := Option.map_eq_some_iff.mp hr.symm
      cases hfile
      refine hselects dir fid hfound fun hnil => ?_
      -- the root directory has no identifier
      subst hfound
      unfold findFile at hfind
      rw [hnil] at hfind
      cases hfind

theorem udfreadFileOpenat_inv (hnode : udf.Node p.dir entries)
    {r : Option (UdfFileIdentifier × UdfFile)}
    (hrun : udfreadFileOpenat I fuel udf p name s = .ok ((r, udf'), s')) :
    udf' = udf ∧ ∀ fid f, r = some (fid, f) → firstNamed entries name = some fid := by
  obtain ⟨d, hd, rfl⟩ := hnode
  obtain ⟨rfl, rfl | ⟨d', index, fi, file, hd', hscan, hfid, -, rfl⟩⟩ := udfreadFileOpenat_cases hrun
  · exact ⟨rfl, nofun⟩
  · obtain rfl : d = d' := Option.some.inj (hd.symm.trans hd')
    refine ⟨rfl, fun fid f hr => ?_⟩
    obtain ⟨file, _, hfile⟩ := Option.map_eq_some_iff.mp hr
    cases hfile
    exact scanDir_first hscan hfid

/-! ## The simulation -/

/-- The cache holds listings of the image, and the resolver comes to the listing of each directory
opened so far. -/
structure LookupRefines (image : Image) (part : UdfPartitions) (root : List UdfFileIdentifier)
    (st : LookupState σ) (paths : List (List Bytes)) : Prop where
  table : st.udf.part = part
  cache : CacheInv image root st.udf
  handles : List.Forall₂ (fun (p : UdfDirHandle) names =>
    ∃ entries, st.udf.Node p.dir entries ∧ Resolves image part root names entries) st.handles paths

variable {part : UdfPartitions} {st st' : LookupState σ} {paths : List (List Bytes)} {e : Lookup}

/-- The components that lead to an open directory. -/
theorem LookupRefines.handle (h : LookupRefines image part root st paths) {k : Nat}
    (hk : st.handles[k]? = some p) : ∃ names entries, paths[k]? = some names ∧
      st.udf.Node p.dir entries ∧ Resolves image part root names entries := by
  obtain ⟨hlt, hp⟩ := List.getElem?_eq_some_iff.mp hk
  have hlt' : k < paths.length := h.handles.length_eq ▸ hlt
  have hrel := h.handles.get hlt hlt'
  simp only [List.get_eq_getElem, hp] at hrel
  obtain ⟨entries, hnode, hres⟩ := hrel
  exact ⟨paths[k], entries, List.getElem?_eq_getElem hlt', hnode, hres⟩

/-- A lookup that opens no directory. -/
theorem LookupRefines.grow {env : σ} (h : LookupRefines image part root st paths)
    (hinv : CacheInv image root udf') (hgrows : Grows st.udf udf') :
    LookupRefines image part root { st with udf := udf', env } paths := by
  refine ⟨hgrows.part.trans h.table, hinv, h.handles.imp ?_⟩
  rintro p names ⟨entries, hnode, hres⟩
  exact ⟨entries, hgrows.node _ _ hnode, hres⟩

/-- A lookup that opens the directory with the components `names`. -/
theorem LookupRefines.opened {env : σ} {names : List Bytes}
    (h : LookupRefines image part root st paths) (hinv : CacheInv image root udf')
    (hgrows : Grows st.udf udf') (hnode : udf'.Node p.dir entries)
    (hres : Resolves image part root names entries) :
    LookupRefines image part root { udf := udf', env, handles := st.handles ++ [p] }
      (paths ++ [names]) := by
  have hgrown : LookupRefines image part root { st with udf := udf', env } paths := h.grow hinv hgrows
  exact ⟨hgrown.table, hinv, List.rel_append hgrown.handles (.cons ⟨entries, hnode, hres⟩ .nil)⟩

theorem lookupStep_refines (hI : I.Faults image) (h : LookupRefines image part root st paths)
    (hstep : SteadyStep I image root st e st') :
    ∃ paths', ResolverStep image part root paths e paths' ∧
      LookupRefines image part root st' paths' := by
  obtain ⟨hstep, hsteady⟩ := hstep
  have hpart := h.table
  cases hstep with
  | @opendir fuel path r udf env hrun =>
    obtain ⟨hinv, hgrows, hr⟩ := udfreadOpendir_inv hI h.cache hsteady hrun
    cases r with
    | none =>
      rw [Option.toList_none, List.append_nil]
      exact ⟨paths, .failed rfl, h.grow hinv hgrows⟩
    | some p =>
      obtain ⟨sub, hnode, hres⟩ := hr p rfl
      rw [hpart] at hres
      rw [Option.map_some, listing_node hnode]
      exact ⟨_, .opendir hres, h.opened hinv hgrows hnode hres⟩
  | @opendirAt fuel k p name r udf env hk hrun =>
    obtain ⟨names, entries, hnames, hnode, hres⟩ := h.handle hk
    have hcall : ∀ fid, firstNamed entries name = some fid → fid.IsDir →
        Steady image st.udf.part fid.icb := by
      intro fid hfid hisdir
      exact hsteady p fid hk (by rwa [listing_node hnode]) hisdir
    obtain ⟨hinv, hgrows, hr⟩ := udfreadOpendirAt_inv hI h.cache hnode hcall hrun
    cases r with
    | none =>
      rw [Option.toList_none, List.append_nil]
      exact ⟨paths, .failed rfl, h.grow hinv hgrows⟩
    | some p' =>
      obtain ⟨fid, sub, hfirst, hisdir, hnode', hlist⟩ := hr p' rfl
      rw [hpart] at hlist
      have hres' := hres.snoc hfirst hisdir hlist
      rw [Option.map_some, listing_node hnode']
      exact ⟨_, .opendirAt hnames hres', h.opened hinv hgrows hnode' hres'⟩
  | @fileOpen fuel path r udf env hrun =>
    obtain ⟨hinv, hgrows, hr⟩ := udfreadFileOpen_inv hI h.cache hsteady hrun
    refine ⟨paths, ?_, h.grow hinv hgrows⟩
    cases r with
    | none => exact .failed rfl
    | some file =>
      have hsel := hr file.1 file.2 rfl
      rw [hpart] at hsel
      exact .fileOpen hsel
  | @fileOpenat fuel k p name r udf env hk hrun =>
    obtain ⟨names, entries, hnames, hnode, hres⟩ := h.handle hk
    obtain ⟨rfl, hr⟩ := udfreadFileOpenat_inv hnode hrun
    refine ⟨paths, ?_, h.grow h.cache (.refl _)⟩
    cases r with
    | none => exact .failed rfl
    | some file => exact .fileOpenat hnames (.snoc hres (hr file.1 file.2 rfl))

/-! ## Opened volumes -/

/-- A handle that is not open, fresh or after failed attempts to open it. -/
def Udfread.Closed (udf : Udfread) : Prop :=
  udf.isOpen = false ∧ ∃ entries, udf.dirs = [{ entries, subdirs := none }]

theorem closed_init (partitionToOpen : Int) : (Udfread.init partitionToOpen).Closed :=
  ⟨rfl, [], rfl⟩

theorem openRoot_dirs {icb : LongAd} {r : Int}
    (h : ∃ entries, udf.dirs = [{ entries, subdirs := none }])
    (hrun : openRoot I fuel udf icb s = .ok ((r, udf'), s')) :
    ∃ entries, udf'.dirs = [{ entries, subdirs := none }] := by
  obtain ⟨entries, hdirs⟩ := h
  obtain ⟨found, s₁, _, hrun⟩ := Proc.bind_eq_ok.mp hrun
  cases found with
  | none =>
    cases hrun
    exact ⟨entries, hdirs⟩
  | some rootIcb =>
    obtain ⟨⟨result, listing⟩, s₂, _, hrun⟩ := Proc.bind_eq_ok.mp hrun
    have hset : (udf.setRootEntries listing).dirs = [{ entries := listing, subdirs := none }] := by
      rw [Udfread.setRootEntries, hdirs]
    simp only at hrun
    split at hrun
    · cases hrun
      exact ⟨listing, hset⟩
    · cases hrun
      exact ⟨listing, hset⟩

/-- Opening fills the root directory and no cache. -/
theorem udfreadOpenInput_dirs {r : Int} (h : udf.Closed)
    (hrun : udfreadOpenInput I fuel udf s = .ok ((r, udf'), s')) :
    ∃ entries, udf'.dirs = [{ entries, subdirs := none }] := by
  obtain ⟨hclosed, hdirs⟩ := h
  unfold udfreadOpenInput at hrun
  rw [hclosed] at hrun
  obtain ⟨probed, s₁, _, hrun⟩ := Proc.bind_eq_ok.mp hrun
  cases probed with
  | false =>
    cases hrun
    exact hdirs
  | true =>
    obtain ⟨read, s₂, _, hrun⟩ := Proc.bind_eq_ok.mp hrun
    cases read with
    | none =>
      cases hrun
      exact hdirs
    | some vds =>
      obtain ⟨valid, s₃, _, hrun⟩ := Proc.bind_eq_ok.mp hrun
      cases valid with
      | none =>
        cases hrun
        exact hdirs
      | some fsdLocation =>
        obtain ⟨volumeIdentifier, s₄, _, hrun⟩ := Proc.bind_eq_ok.mp hrun
        obtain ⟨⟨ok, part⟩, s₅, _, hrun⟩ := Proc.bind_eq_ok.mp hrun
        cases ok with
        | false =>
          cases hrun
          exact hdirs
        | true =>
          refine openRoot_dirs ?_ hrun
          exact hdirs

theorem refines_opened (image : Image)
    (hdirs : ∃ entries, udf.dirs = [{ entries, subdirs := none }]) (env : σ) :
    LookupRefines image udf.part udf.rootEntries { udf, env, handles := [] } [] := by
  obtain ⟨entries, hdirs⟩ := hdirs
  have hroot : udf.rootEntries = entries := by rw [Udfread.rootEntries, hdirs]
  refine ⟨rfl, ⟨⟨{ entries, subdirs := none }, by rw [hdirs]; rfl, hroot.symm⟩, ?_⟩, .nil⟩
  intro i d slots hd hslots
  rw [hdirs] at hd
  have hmem := List.mem_of_getElem? hd
  rw [List.mem_singleton] at hmem
  rw [hmem] at hslots
  cases hslots

/-- Every run of lookups on an opened volume is one of the resolver. -/
theorem lookups_refine (hI : I.Faults image) {udf₀ : Udfread} (hclosed : udf₀.Closed)
    (hopen : udfreadOpenInput I fuel udf₀ s = .ok ((0, udf), s')) {es : List Lookup}
    (hrun : Run (SteadyStep I image udf.rootEntries) { udf, env := s', handles := [] } es st) :
    ∃ paths, Run (ResolverStep image udf.part udf.rootEntries) [] es paths := by
  have hstart := refines_opened image (udfreadOpenInput_dirs hclosed hopen) s'
  have hstep : ∀ st paths e st', LookupRefines image udf.part udf.rootEntries st paths →
      SteadyStep I image udf.rootEntries st e st' →
      ∃ paths', ResolverStep image udf.part udf.rootEntries paths e paths' ∧
        LookupRefines image udf.part udf.rootEntries st' paths' :=
    fun _ _ _ _ h hstep => lookupStep_refines hI h hstep
  obtain ⟨paths, href, _⟩ := hrun.simulates hstep hstart
  exact ⟨paths, href⟩

end

/-! ## More fuel -/

section

variable {σ : Type} {I : BlockInput σ} {part : UdfPartitions} {s s' : σ}

/-- A result does not depend on how much fuel was left. -/
theorem readExtents_mono {fuel n : Nat} (hle : fuel ≤ n) {fe : FileEntry}
    {r : FileEntry × ChainEnd} (h : readExtents I part fuel fe s = .ok (r, s')) :
    readExtents I part n fe s = .ok (r, s') := by
  induction fuel generalizing n fe s with
  | zero => cases h
  | succ fuel ih =>
    obtain ⟨n, rfl⟩ := Nat.exists_eq_add_of_lt (Nat.lt_of_succ_le hle)
    rw [show fuel + n + 1 = (fuel + n) + 1 from rfl]
    rw [readExtents] at h ⊢
    cases hd : fe.dropContinuation with
    | none =>
      rw [hd] at h
      exact h
    | some drop =>
      obtain ⟨loc, g⟩ := drop
      rw [hd] at h
      obtain ⟨m, s₁, hread, h⟩ := Proc.bind_eq_ok.mp h
      simp only
      rw [Proc.bind_of_ok hread]
      rcases m with _ | ⟨tag, buf⟩
      · exact h
      · simp only at h ⊢
        split at h
        · rw [if_pos ‹_›]
          exact h
        · rw [if_neg ‹_›]
          obtain ⟨d, s₂, hdec, h⟩ := Proc.bind_eq_ok.mp h
          rw [Proc.bind_of_ok hdec]
          cases d with
          | none => exact h
          | some fe₂ => exact ih (Nat.le_add_right fuel n) h

theorem udfReadDir_mono {fuel n : Nat} (hle : fuel ≤ n) {icb : LongAd}
    {dir : List UdfFileIdentifier} {r : Int × List UdfFileIdentifier}
    (h : udfReadDir I fuel part icb dir s = .ok (r, s')) :
    udfReadDir I n part icb dir s = .ok (r, s') := by
  obtain ⟨m, s₁, hentry, h⟩ := Proc.bind_eq_ok.mp h
  obtain ⟨c, s₂, hchain, hm⟩ := Proc.bind_eq_ok.mp hentry
  obtain ⟨b, s₃, hblock, hchain⟩ := Proc.bind_eq_ok.mp hchain
  have hchain' : readFileEntryChain I n part icb s = .ok (c, s₂) := by
    rw [readFileEntryChain, Proc.bind_of_ok hblock]
    cases b with
    | none => exact hchain
    | some fe =>
      obtain ⟨e, s₄, hext, hchain⟩ := Proc.bind_eq_ok.mp hchain
      simp only
      rw [Proc.bind_of_ok (readExtents_mono hle hext)]
      exact hchain
  have hentry' : udfReadFileEntry I n part icb s = .ok (m, s₁) := by
    rw [udfReadFileEntry, Proc.bind_of_ok hchain']
    exact hm
  rw [udfReadDir, Proc.bind_of_ok hentry']
  exact h

theorem lookupStep_opendir {st : LookupState σ} {fuel : Nat} {path : Bytes} {p : UdfDirHandle}
    {udf : Udfread} {entries : List UdfFileIdentifier}
    (hrun : udfreadOpendir I fuel st.udf path st.env = .ok ((some p, udf), s'))
    (hlisting : udf.listing p = entries) :
    LookupStep I st (.opendir path (some entries))
      { udf, env := s', handles := st.handles ++ [p] } := by
  subst hlisting
  exact .opendir hrun

theorem lookupStep_opendirAt {st : LookupState σ} {fuel k : Nat} {name : Bytes}
    {p p' : UdfDirHandle} {udf : Udfread} {entries : List UdfFileIdentifier}
    (hk : st.handles[k]? = some p)
    (hrun : udfreadOpendirAt I fuel st.udf p name st.env = .ok ((some p', udf), s'))
    (hlisting : udf.listing p' = entries) :
    LookupStep I st (.opendirAt k name (some entries))
      { udf, env := s', handles := st.handles ++ [p'] } := by
  subst hlisting
  exact .opendirAt hk hrun

theorem lists_unique {image : Image} {icb : LongAd} {entries : List UdfFileIdentifier}
    (h : Lists image part icb entries) {fuel : Nat} {r : Int} {entries' : List UdfFileIdentifier}
    (hrun : udfReadDir (faultFree image) fuel part icb [] () = .ok ((r, entries'), ())) :
    0 ≤ r ∧ entries' = entries := by
  obtain ⟨n, r', hlist, hr⟩ := h
  have hmax := udfReadDir_mono (Nat.le_max_left fuel n) hrun
  rw [udfReadDir_mono (Nat.le_max_right fuel n) hlist] at hmax
  cases hmax
  exact ⟨hr, rfl⟩

end

/-! ## A directory whose chain is cut off -/

/-- An input that has some of the blocks of the image reads it with faults. -/
theorem faults_of_part {image rest : Image}
    (h : ∀ lba data, rest lba = some data → image lba = some data) :
    (faultFree rest).Faults image := by
  intro lba s buf s' hread
  have hblock := hread.symm.trans (readBlock_ofImage lba)
  have hbuf : some buf = (rest lba).map blockBytes := congrArg Prod.fst (Except.ok.inj hblock)
  obtain ⟨data, hdata, rfl⟩ := Option.map_eq_some_iff.mp hbuf.symm
  exact ⟨data, h lba data hdata, rfl⟩

theorem damaged_faults (image : Image) (lost : UInt32 → Bool) :
    (faultFree (damaged image lost)).Faults image := by
  refine faults_of_part fun lba data h => ?_
  cases hlost : lost lba with
  | true =>
    rw [damaged_lost hlost] at h
    cases h
  | false => rwa [damaged_kept hlost] at h

/-- The identifier of directory "d", whose ICB is block 2 of the partition. -/
def subDirFid : Bytes :=
  [1, 1, 0, 0, 2] ++ List.replicate 13 0 ++ [2, 2, 0, 8, 0, 0, 2] ++ List.replicate 13 0 ++
    [8, 0x64]

/-- The identifier of file "a". -/
def aFileFid : Bytes :=
  [1, 1, 0, 0, 2] ++ List.replicate 13 0 ++ [0, 2, 0, 8, 0, 0, 5] ++ List.replicate 13 0 ++
    [8, 0x61]

/-- A volume with directory "d", and the blocks 303 and 304 that its file entry may point at. -/
def subDirVolume (dir : Nat → UInt8) : Image :=
  minimalVolume 7 fun lba =>
    if lba = 301 then some (inlineDirBlock subDirFid)
    else if lba = 302 then some dir
    else if lba = 303 then some (withField 0 aFileFid emptyBlock)
    else if lba = 304 then some (tagged 258)
    else none

/-- A directory whose descriptors are two pointers to allocation extents, at blocks 303 and 304. -/
def pointerDir : Nat → UInt8 :=
  withField 172 [16] (withField 176 [40, 0, 0, 192, 3, 0, 0, 0, 0, 8, 0, 192, 4]
    (withField 20 [4] (withField 27 [4] (tagged 261))))

def aFile : UdfFileIdentifier where
  filename := [0x61]
  icb := { lba := 5, length := 2048, partition := 0, extentType := 0 }
  characteristic := 0

def subDir : UdfFileIdentifier where
  filename := [0x64]
  icb := { lba := 2, length := 2048, partition := 0, extentType := 0 }
  characteristic := 2

/-- The handle after opening such a volume. -/
def subDirOpened : Udfread where
  isOpen := true
  part :=
    { numPartition := 1
      p0 := { number := 0, lba := 300, mirrorLba := 0 }
      p1 := { number := 0, lba := 0, mirrorLba := 0 } }
  dirs := [{ entries := [subDir], subdirs := none }]
  volumeIdentifier := some []
  volumeSetIdentifier := List.replicate 128 0
  partitionToOpen := 7

/-- The handle once directory "d" is cached, with its listing. -/
def subDirCached (entries : List UdfFileIdentifier) : Udfread :=
  { subDirOpened with
    dirs := [{ entries := [subDir], subdirs := some [some 1] }, { entries, subdirs := none }] }

/-! ### A directory behind a chain -/

/-- A directory with its content at block 303 and a pointer to an allocation extent at block 304. -/
def chainedDir : Nat → UInt8 :=
  withField 172 [16] (withField 176 [40, 0, 0, 0, 3, 0, 0, 0, 0, 8, 0, 192, 4]
    (withField 20 [4] (withField 27 [4] (tagged 261))))

def chainedEntry : FileEntry where
  length := 0
  fileType := fileTypeDir
  u := .ads .short [{ lba := 3, length := 40, partition := 0, extentType := 0 },
    { lba := 4, length := 2048, partition := 0, extentType := 3 }]

def chainedVolume : Image := subDirVolume chainedDir

/-- Block 304 cannot be read. -/
def lost304 (lba : UInt32) : Bool := lba == 304

/-- The input that is left of the volume. -/
abbrev chainedInput : BlockInput Unit := faultFree (damaged chainedVolume lost304)

theorem chainedInput_opened :
    udfreadOpenInput chainedInput 3 (Udfread.init 7) () = .ok ((0, subDirOpened), ()) := by
  decide +kernel

theorem extentAgrees_noMirror {image : Image} {part : UdfPartitions}
    (h0 : part.p0.mirrorLba = 0) (h1 : part.p1.mirrorLba = 0) (loc : LongAd) :
    ExtentAgrees image part loc := by
  intro p hp k _ hmirror
  unfold partitionOf at hp
  split at hp
  · cases hp
    exact absurd h0 hmirror
  · split at hp
    · cases hp
      exact absurd h1 hmirror
    · cases hp

theorem chainedDir_steady : Steady chainedVolume subDirOpened.part subDir.icb where
  ends := ⟨3, ((0, [aFile]), ()), by decide +kernel⟩
  copies loc _ := extentAgrees_noMirror rfl rfl loc
  plain := by
    have hentry : readEntryBlock (faultFree chainedVolume) subDirOpened.part subDir.icb () =
        .ok (some chainedEntry, ()) := by
      decide +kernel
    exact noPointerFirst_of_first hentry ⟨_, _, rfl⟩ (by decide)

/-- The root directory. -/
theorem chainedVolume_root :
    SteadyStep chainedInput chainedVolume subDirOpened.rootEntries
      { udf := subDirOpened, env := (), handles := [] } (.opendir [0x2f] (some [subDir]))
      { udf := subDirOpened, env := (), handles := [{ dir := 0, currentFile := 0 }] } := by
  have hrun : udfreadOpendir chainedInput 3 subDirOpened [0x2f] () =
      .ok ((some { dir := 0, currentFile := 0 }, subDirOpened), ()) := by
    decide +kernel
  constructor
  · exact lookupStep_opendir hrun rfl
  · intro k fid hsel
    have htokens : tokens [0x2f] = [] := by decide
    rw [htokens, List.take_nil] at hsel
    cases hsel

/-- Directory "d", whose chain is cut off at the lost block. -/
theorem chainedVolume_subDir :
    SteadyStep chainedInput chainedVolume subDirOpened.rootEntries
      { udf := subDirOpened, env := (), handles := [{ dir := 0, currentFile := 0 }] }
      (.opendirAt 0 [0x64] (some [aFile]))
      { udf := subDirCached [aFile], env := (),
        handles := [{ dir := 0, currentFile := 0 }, { dir := 1, currentFile := 0 }] } := by
  have hrun : udfreadOpendirAt chainedInput 3 subDirOpened { dir := 0, currentFile := 0 } [0x64] () =
      .ok ((some { dir := 1, currentFile := 0 }, subDirCached [aFile]), ()) := by
    decide +kernel
  constructor
  · exact lookupStep_opendirAt rfl hrun rfl
  · intro p fid hp hfid _
    cases hp
    have hfirst : firstNamed (subDirOpened.listing { dir := 0, currentFile := 0 }) [0x64] =
        some subDir := by
      decide +kernel
    rw [hfirst] at hfid
    cases hfid
    exact chainedDir_steady

/-- Directory "d" by its path, which is in the cache by now: no fuel is needed. -/
theorem chainedVolume_cached :
    SteadyStep chainedInput chainedVolume subDirOpened.rootEntries
      { udf := subDirCached [aFile], env := (),
        handles := [{ dir := 0, currentFile := 0 }, { dir := 1, currentFile := 0 }] }
      (.opendir [0x64] (some [aFile]))
      { udf := subDirCached [aFile], env := (),
        handles := [{ dir := 0, currentFile := 0 }, { dir := 1, currentFile := 0 },
          { dir := 1, currentFile := 0 }] } := by
  have hrun : udfreadOpendir chainedInput 0 (subDirCached [aFile]) [0x64] () =
      .ok ((some { dir := 1, currentFile := 0 }, subDirCached [aFile]), ()) := by
    decide +kernel
  constructor
  · exact lookupStep_opendir hrun rfl
  · intro k fid hsel _
    have htokens : tokens [0x64] = [[0x64]] := by decide
    have hroot : firstNamed subDirOpened.rootEntries [0x64] = some subDir := by
      decide +kernel
    rw [htokens] at hsel
    cases k with
    | zero => cases hsel
    | succ k =>
      rw [List.take_of_length_le (by simp)] at hsel
      cases hsel with
      | last hfirst =>
        rw [hroot] at hfirst
        cases hfirst
        exact chainedDir_steady
      | cons _ _ _ hrest => cases hrest

/-- Opening the root directory, from there directory "d", and that once more by its path. -/
theorem lookups_refine_subDir :
    ∃ paths, Run (ResolverStep chainedVolume subDirOpened.part subDirOpened.rootEntries) []
      [.opendir [0x2f] (some [subDir]), .opendirAt 0 [0x64] (some [aFile]),
        .opendir [0x64] (some [aFile])] paths :=
  lookups_refine (damaged_faults _ _) (closed_init 7) chainedInput_opened
    (.cons chainedVolume_root (.cons chainedVolume_subDir (.cons chainedVolume_cached (.nil _))))

/-! ### A directory of pointers -/

def pointerVolume : Image := subDirVolume pointerDir

theorem pointerVolume_lists (entries : List UdfFileIdentifier) :
    ¬ Lists pointerVolume subDirOpened.part subDir.icb entries := by
  intro h
  have hrun : udfReadDir (faultFree pointerVolume) 3 subDirOpened.part subDir.icb [] () =
      .ok ((-1, []), ()) := by
    decide +kernel
  obtain ⟨hr, _⟩ := lists_unique h hrun
  omega

/-- The cut leaves a continuation descriptor in front, which is then read as the content of the
directory. -/
theorem lookups_pointer :
    (faultFree (damaged pointerVolume lost304)).Faults pointerVolume ∧
    udfreadOpenInput (faultFree (damaged pointerVolume lost304)) 3 (Udfread.init 7) () =
      .ok ((0, subDirOpened), ()) ∧
    ReadEnds pointerVolume subDirOpened.part subDir.icb ∧
    (∀ loc, ExtentAgrees pointerVolume subDirOpened.part loc) ∧
    (∃ st, Run (LookupStep (faultFree (damaged pointerVolume lost304)))
      { udf := subDirOpened, env := (), handles := [] } [.opendir [0x64] (some [aFile])] st) ∧
    ¬ ∃ paths, Run (ResolverStep pointerVolume subDirOpened.part subDirOpened.rootEntries) []
      [.opendir [0x64] (some [aFile])] paths := by
  refine ⟨damaged_faults _ _, by decide +kernel, ⟨3, ((-1, []), ()), by decide +kernel⟩,
    extentAgrees_noMirror rfl rfl, ?_, ?_⟩
  · have hrun : udfreadOpendir (faultFree (damaged pointerVolume lost304)) 3 subDirOpened [0x64]
        () = .ok ((some { dir := 1, currentFile := 0 }, subDirCached [aFile]), ()) := by
      decide +kernel
    exact ⟨_, .cons (lookupStep_opendir hrun rfl) (.nil _)⟩
  · rintro ⟨paths, hrun⟩
    cases hrun with
    | cons hstep _ =>
      cases hstep with
      | failed hfails => cases hfails
      | opendir hres =>
        have htokens : tokens [0x64] = [[0x64]] := by decide
        have hroot : firstNamed subDirOpened.rootEntries [0x64] = some subDir := by
          decide +kernel
        rw [htokens] at hres
        cases hres with
        | cons hfirst _ hlist _ =>
          rw [hroot] at hfirst
          cases hfirst
          exact pointerVolume_lists _ hlist

end UdfRead
