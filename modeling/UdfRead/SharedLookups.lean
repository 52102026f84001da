import UdfRead.LookupRuns
import UdfRead.PublishedOnce

/-!
# UdfRead.SharedLookups

`_find_file` run by any number of callers at once. The loop of each caller scans the entries of its
current directory, and takes the steps of `_cache_subdir` on the shared tree (`SharedCache`) to go
down. A run of lookups is a run of the shared cache, and every answer is the one of the resolver
that reads each directory of the path from the image (`findFiles_resolve`).
-/

namespace UdfRead

open CModel

variable {σ Dir Tab Caller : Type}

/-- Where a caller is in `_find_file`: at the head of its loop with the current directory, the last
identifier met and the tokens left; in `_cache_subdir`; or with its result. -/
inductive FindAt (Dir : Type) where
  | loop (dir : Dir) (fid : Option UdfFileIdentifier) (rest : List Bytes)
  | caching (fid : UdfFileIdentifier) (rest : List Bytes)
  | done (result : Option (Option Dir × Option UdfFileIdentifier))
  | fault

/-- The callers of `_find_file`, each with its path, over the shared cache. -/
structure SharedLookups (Dir Tab Caller : Type) where
  cache : SharedCache Dir Tab Caller
  finds : Caller → Option (Bytes × FindAt Dir)

inductive FindEvent (Dir Caller : Type) where
  | call (p : Caller) (path : Bytes)
  | step (p : Caller)
  | ret (p : Caller) (path : Bytes) (result : Option (Option Dir × Option UdfFileIdentifier))

namespace SharedLookups

section

variable [DecidableEq Caller]

/-- Caller `p` goes on in its own loop. -/
@[simps]
def moveTo (s : SharedLookups Dir Tab Caller) (p : Caller) (x : Option (Bytes × FindAt Dir)) :
    SharedLookups Dir Tab Caller :=
  { s with finds := Function.update s.finds p x }

/-- Caller `p` goes on in `_cache_subdir`, with memory `m`. -/
@[simps]
def inCache (s : SharedLookups Dir Tab Caller) (p : Caller) (m : Memory Dir Tab)
    (x : Option (Call Dir × At Dir Tab)) : SharedLookups Dir Tab Caller :=
  { s with cache := ⟨m, Function.update s.cache.callers p x⟩ }

variable [DecidableEq Dir] [DecidableEq Tab]

/-- What `_find_file` does with the result of `_cache_subdir`. -/
def afterCache (fid : UdfFileIdentifier) (rest : List Bytes) : Option Dir → FindAt Dir
  | none => .done none
  | some sub => .loop sub (some fid) rest

inductive Step (I : BlockInput σ) (part : UdfPartitions) (root : Dir) :
    SharedLookups Dir Tab Caller → FindEvent Dir Caller → SharedLookups Dir Tab Caller →
      Prop where
  | call {s p path} : s.finds p = none →
      Step I part root s (.call p path)
        (s.moveTo p (some (path, .loop root none (tokens path))))
  | missing {s p path dir fid token rest} :
      s.finds p = some (path, .loop dir fid (token :: rest)) →
      scanDir (s.cache.memory.entries dir) token = none →
      Step I part root s (.step p) (s.moveTo p (some (path, .done none)))
  | file {s p path dir fid₀ token index fid} :
      s.finds p = some (path, .loop dir fid₀ [token]) →
      scanDir (s.cache.memory.entries dir) token = some index →
      (s.cache.memory.entries dir)[index]? = some fid → ¬ fid.IsDir →
      Step I part root s (.step p) (s.moveTo p (some (path, .done (some (none, some fid)))))
  | fileInside {s p path dir fid₀ token rest index fid} :
      s.finds p = some (path, .loop dir fid₀ (token :: rest)) → rest ≠ [] →
      scanDir (s.cache.memory.entries dir) token = some index →
      (s.cache.memory.entries dir)[index]? = some fid → ¬ fid.IsDir →
      Step I part root s (.step p) (s.moveTo p (some (path, .done none)))
  | enter {s p path dir fid₀ token rest index fid} :
      s.finds p = some (path, .loop dir fid₀ (token :: rest)) →
      scanDir (s.cache.memory.entries dir) token = some index →
      (s.cache.memory.entries dir)[index]? = some fid → fid.IsDir →
      Step I part root s (.step p)
        ((s.inCache p s.cache.memory (some (⟨dir, index⟩, .flags))).moveTo p
          (some (path, .caching fid rest)))
  | inside {s p c a m' a'} : s.cache.callers p = some (c, a) →
      CacheStep I part c s.cache.memory a m' a' →
      Step I part root s (.step p) (s.inCache p m' (some (c, a')))
  | back {s p path fid rest c r} : s.finds p = some (path, .caching fid rest) →
      s.cache.callers p = some (c, .returned r) →
      Step I part root s (.step p)
        ((s.inCache p s.cache.memory none).moveTo p (some (path, afterCache fid rest r)))
  | finish {s p path dir fid} : s.finds p = some (path, .loop dir fid []) →
      Step I part root s (.step p) (s.moveTo p (some (path, .done (some (some dir, fid)))))
  | ret {s p path r} : s.finds p = some (path, .done r) →
      Step I part root s (.ret p path r) (s.moveTo p none)
  /-- The directory that the loop scans is not allocated. -/
  | fault {s p path dir fid rest} : s.finds p = some (path, .loop dir fid rest) →
      s.cache.memory.status (.dir dir) ≠ .live →
      Step I part root s (.step p) (s.moveTo p (some (path, .fault)))

end

end SharedLookups

/-! ## What the callers have found -/

namespace Memory

/-- The components lead from the root directory to the directory, through the slots. -/
inductive Reaches (m : Memory Dir Tab) (root : Dir) : List Bytes → Dir → Prop where
  | root : Reaches m root [] root
  | snoc {names : List Bytes} {name : Bytes} {d d' : Dir} {index : ℕ} {fid : UdfFileIdentifier} :
      Reaches m root names d → scanDir (m.entries d) name = some index →
      (m.entries d)[index]? = some fid → fid.IsDir → m.Filled ⟨d, index⟩ d' →
      Reaches m root (names ++ [name]) d'

/-- The components lead to an identifier in a directory of the tree. -/
def Picks (m : Memory Dir Tab) (root : Dir) (names : List Bytes) (fid : UdfFileIdentifier) : Prop :=
  ∃ names' name d index, names = names' ++ [name] ∧ m.Reaches root names' d ∧
    scanDir (m.entries d) name = some index ∧ (m.entries d)[index]? = some fid

/-- The tree has grown: its pointers and the entries of its directories are as they were. -/
structure Later (root : Dir) (m m' : Memory Dir Tab) : Prop where
  cell : ∀ k o, m.cell k = some o → m'.cell k = some o
  entries : ∀ d, m.InTree root (.dir d) → m'.entries d = m.entries d

variable {m m' m'' : Memory Dir Tab} {root d d' : Dir} {names : List Bytes}
  {fid : UdfFileIdentifier}

theorem Later.refl (m : Memory Dir Tab) : Later root m m := ⟨fun _ _ h => h, fun _ _ => rfl⟩

theorem Later.trans (h : Later root m m') (h' : Later root m' m'') : Later root m m'' := by
  refine ⟨fun k o hk => h'.cell k o (h.cell k o hk), fun d hd => ?_⟩
  rw [h'.entries d (hd.mono h.cell), h.entries d hd]

theorem Filled.inTree {c : Call Dir} (h : m.Filled c d) (hc : m.InTree root (.dir c.dir)) :
    m.InTree root (.dir d) := by
  obtain ⟨t, ht, hd⟩ := h
  have htab : m.InTree root (.tab t) := by
    refine Publish.Published.child ?_ (cell_subdirs_eq_some.mpr ht)
    exact hc
  refine Publish.Published.child ?_ (cell_slot_eq_some.mpr hd)
  exact htab

theorem Filled.unique {c : Call Dir} (h : m.Filled c d) (h' : m.Filled c d') : d = d' := by
  obtain ⟨t, ht, hd⟩ := h
  obtain ⟨t', ht', hd'⟩ := h'
  obtain rfl : t = t' := Option.some.inj (ht.symm.trans ht')
  exact Option.some.inj (hd.symm.trans hd')

namespace Reaches

theorem inTree (h : m.Reaches root names d) : m.InTree root (.dir d) := by
  induction h with
  | root => exact .root
  | snoc _ _ _ _ hfilled ih => exact hfilled.inTree ih

theorem later (h : m.Reaches root names d) (hlater : Later root m m') :
    m'.Reaches root names d := by
  induction h with
  | root => exact .root
  | snoc hd hscan hfid hdir hfilled ih =>
    have hentries := hlater.entries _ hd.inTree
    refine .snoc ih ?_ ?_ hdir (hfilled.mono hlater.cell)
    · rw [hentries]
      exact hscan
    · rw [hentries]
      exact hfid

/-- A path leads to one directory. -/
theorem unique (h : m.Reaches root names d) (h' : m.Reaches root names d') : d = d' := by
  induction h generalizing d' with
  | root =>
    generalize hnil : ([] : List Bytes) = names at h'
    cases h' with
    | root => rfl
    | snoc => simp at hnil
  | @snoc names name d₁ d₂ index fid _ hscan _ _ hfilled ih =>
    generalize hsnoc : names ++ [name] = names' at h'
    cases h' with
    | root => simp at hsnoc
    | snoc h₁ hscan' _ _ hfilled' =>
      obtain ⟨rfl, heq⟩ := List.append_inj' hsnoc rfl
      cases heq
      obtain rfl := ih h₁
      obtain rfl : index = _ := Option.some.inj (hscan.symm.trans hscan')
      exact hfilled.unique hfilled'

end Reaches

theorem Picks.later (h : m.Picks root names fid) (hlater : Later root m m') :
    m'.Picks root names fid := by
  obtain ⟨names', name, d, index, rfl, hd, hscan, hfid⟩ := h
  have hentries := hlater.entries d hd.inTree
  exact ⟨names', name, d, index, rfl, hd.later hlater, by rw [hentries, hscan],
    by rw [hentries, hfid]⟩

end Memory

/-- The result of a lookup of the path. -/
structure LookupAnswer (m : Memory Dir Tab) (root : Dir) (path : Bytes)
    (r : Option (Option Dir × Option UdfFileIdentifier)) : Prop where
  dir : ∀ d fid, r = some (some d, fid) → m.Reaches root (tokens path) d
  fid : ∀ d fid, r = some (d, some fid) → m.Picks root (tokens path) fid

/-- What a caller of `_find_file` relies on. -/
def FindOk (m : Memory Dir Tab) (root : Dir) (call : Option (Call Dir × At Dir Tab)) :
    Option (Bytes × FindAt Dir) → Prop
  | none => call = none
  | some (path, .loop dir fid rest) => call = none ∧ ∃ names, tokens path = names ++ rest ∧
      m.Reaches root names dir ∧ ∀ f, fid = some f → m.Picks root names f
  | some (path, .caching fid rest) => ∃ c a names name, call = some (c, a) ∧
      tokens path = names ++ name :: rest ∧ m.Reaches root names c.dir ∧
      scanDir (m.entries c.dir) name = some c.index ∧
      (m.entries c.dir)[c.index]? = some fid ∧ fid.IsDir
  | some (path, .done r) => call = none ∧ LookupAnswer m root path r
  | some (_, .fault) => False

section

variable {m m' : Memory Dir Tab} {root : Dir} {call : Option (Call Dir × At Dir Tab)}
  {x : Option (Bytes × FindAt Dir)} {path : Bytes}
  {r : Option (Option Dir × Option UdfFileIdentifier)}

theorem LookupAnswer.later (h : LookupAnswer m root path r) (hlater : Memory.Later root m m') :
    LookupAnswer m' root path r :=
  ⟨fun d fid hr => (h.dir d fid hr).later hlater, fun d fid hr => (h.fid d fid hr).later hlater⟩

/-- What one caller has found stays found while the others go on. -/
theorem FindOk.later (h : FindOk m root call x) (hlater : Memory.Later root m m') :
    FindOk m' root call x := by
  obtain _ | ⟨path, _ | _ | _ | _⟩ := x
  · exact h
  · obtain ⟨hcall, names, hnames, hd, hpicks⟩ := h
    exact ⟨hcall, names, hnames, hd.later hlater, fun f hf => (hpicks f hf).later hlater⟩
  · obtain ⟨c, a, names, name, hcall, hnames, hd, hscan, hfid, hdir⟩ := h
    have hentries := hlater.entries _ hd.inTree
    exact ⟨c, a, names, name, hcall, hnames, hd.later hlater, by rw [hentries, hscan],
      by rw [hentries, hfid], hdir⟩
  · exact ⟨h.1, h.2.later hlater⟩
  · exact h

end

/-! ## The invariant -/

namespace SharedCache.Good

variable {I : BlockInput σ} {part : UdfPartitions} {root : Dir}
  {s s' : SharedCache Dir Tab Caller} {e : CacheEvent Dir Caller}
  [DecidableEq Dir] [DecidableEq Tab] [DecidableEq Caller]

theorem step_later (h : Good I part root s) (hs : Step I part root s e s') :
    Memory.Later root s.memory s'.memory := by
  refine ⟨fun k o => h.step_cell hs, fun d hd => ?_⟩
  cases hs with
  | call _ _ _ => rfl
  | step hp hs => exact h.effect_entries hp (hs.effect (h.caller _ _ _ hp) (h.not_faults hp)) hd
  | ret _ => rfl

end SharedCache.Good

namespace SharedLookups

variable {I : BlockInput σ} {part : UdfPartitions} {root : Dir}
  {s s' : SharedLookups Dir Tab Caller} {p : Caller} {e : FindEvent Dir Caller}
  {es : List (FindEvent Dir Caller)}

/-- The cache is good, and each caller has what it relies on. -/
structure Inv (I : BlockInput σ) (part : UdfPartitions) (root : Dir)
    (s : SharedLookups Dir Tab Caller) : Prop where
  good : SharedCache.Good I part root s.cache
  finds : ∀ p, FindOk s.cache.memory root (s.cache.callers p) (s.finds p)

theorem inCache_moveTo_self [DecidableEq Caller] (s : SharedLookups Dir Tab Caller)
    (m : Memory Dir Tab) (y : Option (Call Dir × At Dir Tab)) :
    (s.inCache p m y).moveTo p (s.finds p) = s.inCache p m y := by
  have hfinds : Function.update s.finds p (s.finds p) = s.finds := Function.update_eq_self p s.finds
  exact congrArg (SharedLookups.mk (s.inCache p m y).cache) hfinds

namespace Inv

variable (h : Inv I part root s)
include h

theorem dir_live {path : Bytes} {dir : Dir} {fid : Option UdfFileIdentifier} {rest : List Bytes}
    (hp : s.finds p = some (path, .loop dir fid rest)) :
    s.cache.memory.status (.dir dir) = .live := by
  have hfind := h.finds p
  rw [hp] at hfind
  obtain ⟨-, names, -, hd, -⟩ := hfind
  exact h.good.published.published_live hd.inTree

variable [DecidableEq Caller]

/-- A caller goes on in its own loop. -/
theorem moveTo {x : Option (Bytes × FindAt Dir)}
    (hx : FindOk s.cache.memory root (s.cache.callers p) x) : Inv I part root (s.moveTo p x) := by
  refine ⟨h.good, fun q => ?_⟩
  by_cases hq : q = p
  · subst hq
    simpa using hx
  · simpa [hq] using h.finds q

variable [DecidableEq Dir] [DecidableEq Tab]

/-- A caller goes on in `_cache_subdir`. -/
theorem inCache {m : Memory Dir Tab} {y : Option (Call Dir × At Dir Tab)}
    {x : Option (Bytes × FindAt Dir)} {e : CacheEvent Dir Caller}
    (hs : SharedCache.Step I part root s.cache e (s.inCache p m y).cache)
    (hx : FindOk m root y x) : Inv I part root ((s.inCache p m y).moveTo p x) := by
  have hlater := h.good.step_later hs
  refine ⟨h.good.step hs, fun q => ?_⟩
  by_cases hq : q = p
  · subst hq
    simpa using hx
  · simpa [hq] using (h.finds q).later hlater

/-- A step on the cache is a step of `SharedCache`, whose guards the lookup has seen to. -/
theorem step_cache (hs : Step I part root s e s') :
    s'.cache = s.cache ∨ ∃ e', SharedCache.Step I part root s.cache e' s'.cache := by
  cases hs with
  | call _ | missing _ _ | file _ _ _ _ | fileInside _ _ _ _ _ | finish _ | ret _ | fault _ _ =>
    exact .inl rfl
  | @enter p path dir fid₀ token rest index fid hp hscan hfid hdir =>
    have hfind := h.finds p
    rw [hp] at hfind
    obtain ⟨hidle, names, -, hd, -⟩ := hfind
    exact .inr ⟨.call p ⟨dir, index⟩,
      .call hidle hd.inTree (List.getElem?_eq_some_iff.mp hfid).1⟩
  | inside hp hs => exact .inr ⟨_, .step hp hs⟩
  | back hp hc => exact .inr ⟨_, .ret hc⟩

theorem step (hs : Step I part root s e s') : Inv I part root s' := by
  cases hs with
  | @call p path hp =>
    have hfind := h.finds p
    rw [hp] at hfind
    exact h.moveTo ⟨hfind, [], rfl, .root, nofun⟩
  | @missing p _ _ _ _ _ hp _ | @fileInside p _ _ _ _ _ _ _ hp _ _ _ _ =>
    have hfind := h.finds p
    rw [hp] at hfind
    exact h.moveTo ⟨hfind.1, nofun, nofun⟩
  | @file p path dir fid₀ token index fid hp hscan hfid _ =>
    have hfind := h.finds p
    rw [hp] at hfind
    obtain ⟨hidle, names, hnames, hd, -⟩ := hfind
    refine h.moveTo ⟨hidle, nofun, fun d f hr => ?_⟩
    cases hr
    exact ⟨names, token, dir, index, hnames, hd, hscan, hfid⟩
  | @enter p path dir fid₀ token rest index fid hp hscan hfid hdir =>
    have hfind := h.finds p
    rw [hp] at hfind
    obtain ⟨hidle, names, hnames, hd, -⟩ := hfind
    have hcall : SharedCache.Step I part root s.cache (.call p ⟨dir, index⟩) _ :=
      .call hidle hd.inTree (List.getElem?_eq_some_iff.mp hfid).1
    exact h.inCache hcall ⟨_, _, names, token, rfl, hnames, hd, hscan, hfid, hdir⟩
  | @inside p c a m' a' hp hs =>
    have hstep : SharedCache.Step I part root s.cache (.step p) _ := .step hp hs
    have hlater := h.good.step_later hstep
    have hfind := (h.finds p).later hlater
    rw [← inCache_moveTo_self s m' (some (c, a'))]
    refine h.inCache hstep ?_
    rw [hp] at hfind
    -- the caller is in `_cache_subdir`, at whichever step
    generalize s.finds p = x at hfind ⊢
    obtain _ | ⟨path, _ | _ | _ | _⟩ := x
    · cases hfind
    · cases hfind.1
    · obtain ⟨c', a₀, names, name, hcall, hrest⟩ := hfind
      cases hcall
      exact ⟨c, a', names, name, rfl, hrest⟩
    · cases hfind.1
    · exact hfind
  | @back p path fid rest c r hp hc =>
    have hstep : SharedCache.Step I part root s.cache (.ret p c r) _ := .ret hc
    have hfind := h.finds p
    rw [hp, hc] at hfind
    obtain ⟨c', _, names, name, hcall, hnames, hd, hscan, hfid, hdir⟩ := hfind
    cases hcall
    refine h.inCache hstep ?_
    cases r with
    | none => exact ⟨rfl, nofun, nofun⟩
    | some sub =>
      have hfilled := h.good.caller p c _ hc sub rfl
      refine ⟨rfl, names ++ [name], by simp [hnames], .snoc hd hscan hfid hdir hfilled, ?_⟩
      intro f hf
      cases hf
      exact ⟨names, name, c.dir, c.index, rfl, hd, hscan, hfid⟩
  | @finish p path dir fid hp =>
    have hfind := h.finds p
    rw [hp] at hfind
    obtain ⟨hidle, names, hnames, hd, hpicks⟩ := hfind
    rw [List.append_nil] at hnames
    refine h.moveTo ⟨hidle, fun d f hr => ?_, fun d f hr => ?_⟩
    · cases hr
      rw [hnames]
      exact hd
    · cases hr
      rw [hnames]
      exact hpicks f rfl
  | @ret p _ _ hp =>
    have hfind := h.finds p
    rw [hp] at hfind
    exact h.moveTo hfind.1
  | fault hp hdead => exact absurd (h.dir_live hp) hdead

theorem step_later (hs : Step I part root s e s') :
    Memory.Later root s.cache.memory s'.cache.memory := by
  obtain hsame | ⟨e', hstep⟩ := h.step_cache hs
  · rw [hsame]
    exact .refl _
  · exact h.good.step_later hstep

theorem run (hrun : Run (Step I part root) s es s') :
    Inv I part root s' ∧ Memory.Later root s.cache.memory s'.cache.memory := by
  induction hrun with
  | nil s => exact ⟨h, .refl _⟩
  | cons hs _ ih =>
    obtain ⟨hinv, hlater⟩ := ih (h.step hs)
    exact ⟨hinv, (h.step_later hs).trans hlater⟩

/-- A run of lookups is a run of the shared cache. -/
theorem run_cache (hrun : Run (Step I part root) s es s') :
    ∃ es', Run (SharedCache.Step I part root) s.cache es' s'.cache := by
  induction hrun with
  | nil s => exact ⟨[], .nil _⟩
  | cons hs _ ih =>
    obtain ⟨es', hrest⟩ := ih (h.step hs)
    obtain hsame | ⟨e', hstep⟩ := h.step_cache hs
    · exact ⟨es', hsame ▸ hrest⟩
    · exact ⟨e' :: es', .cons hstep hrest⟩

/-- An answer stays right. -/
theorem run_answers (hrun : Run (Step I part root) s es s') {path : Bytes}
    {r : Option (Option Dir × Option UdfFileIdentifier)} (hret : .ret p path r ∈ es) :
    LookupAnswer s'.cache.memory root path r := by
  induction hrun with
  | nil s => simp at hret
  | @cons s s₁ s' e es hs hrest ih =>
    obtain rfl | hmem := List.mem_cons.mp hret
    · have hlater := ((h.step hs).run hrest).2
      have hstep := h.step_later hs
      cases hs with
      | ret hp =>
        have hfind := h.finds p
        rw [hp] at hfind
        exact hfind.2.later (hstep.trans hlater)
    · exact ih (h.step hs) hmem

end Inv

end SharedLookups

/-! ## What the image gives -/

section

variable {I : BlockInput σ} {part : UdfPartitions} {root : Dir} {image : Image}
  {entries : List UdfFileIdentifier} {names : List Bytes} {name : Bytes}
  {P : LongAd → Prop}

theorem OnPath.init (h : OnPath image part P entries (names ++ [name])) :
    OnPath image part P entries names := by
  intro k fid hsel
  refine h (min k names.length) fid ?_
  rw [List.take_append_of_le_length (min_le_right _ _)]
  obtain hk | hk := Nat.le_total k names.length
  · rwa [min_eq_left hk]
  · rw [min_eq_right hk, List.take_length]
    rwa [List.take_of_length_le hk] at hsel

variable {s : SharedCache Dir Tab Caller} {d : Dir} {fid : UdfFileIdentifier}

/-- What a path leads to in the tree is what the resolver reads from the image. -/
theorem SharedCache.Good.resolves (h : Good I part root s) (hI : I.Faults image)
    (hd : s.memory.Reaches root names d)
    (hsteady : OnPath image part (Steady image part) (s.memory.entries root) names) :
    Resolves image part (s.memory.entries root) names (s.memory.entries d) := by
  induction hd with
  | root => exact .nil _
  | snoc _ hscan hfid hdir hfilled ih =>
    have hres := ih hsteady.init
    have hfirst := scanDir_first hscan hfid
    have hsub := hsteady.last hres hfirst hdir
    obtain ⟨fid', hfid', fuel, st, result, st', hread, hok⟩ := h.read _ _ hfilled
    rw [hfid] at hfid'
    cases hfid'
    have hlist := udfReadDir_faulty hI hsub.copies hsub.ends hsub.plain hread hok
    exact hres.snoc hfirst hdir hlist

theorem SharedCache.Good.selects (h : Good I part root s) (hI : I.Faults image)
    (hfid : s.memory.Picks root names fid)
    (hsteady : OnPath image part (Steady image part) (s.memory.entries root) names) :
    Selects image part (s.memory.entries root) names fid := by
  obtain ⟨names', name, d, index, rfl, hd, hscan, hindex⟩ := hfid
  have hres := h.resolves hI hd hsteady.init
  exact .snoc hres (scanDir_first hscan hindex)

end

namespace SharedLookups

variable {I : BlockInput σ} {part : UdfPartitions} {root : Dir}
  {s : SharedLookups Dir Tab Caller} {es : List (FindEvent Dir Caller)}

/-- Nothing has been looked up, and nobody is looking anything up. -/
structure Opened (s : SharedLookups Dir Tab Caller) (root : Dir)
    (entries : List UdfFileIdentifier) : Prop where
  cache : s.cache.Opened root
  entries : s.cache.memory.entries root = entries
  idle : ∀ p, s.finds p = none

/-- What holds after lookups have been running. -/
structure Resolved (image : Image) (part : UdfPartitions) (entries : List UdfFileIdentifier)
    (s : SharedLookups Dir Tab Caller) (events : List (FindEvent Dir Caller)) : Prop where
  safe : ∀ p path, s.finds p ≠ some (path, .fault)
  cache_safe : ∀ p c a, s.cache.callers p = some (c, a) → a ≠ .fault
  dir : ∀ p path d fid, .ret p path (some (some d, fid)) ∈ events →
    OnPath image part (Steady image part) entries (tokens path) →
    Resolves image part entries (tokens path) (s.cache.memory.entries d)
  fid : ∀ p path d fid, .ret p path (some (d, some fid)) ∈ events →
    OnPath image part (Steady image part) entries (tokens path) →
    Selects image part entries (tokens path) fid
  /-- Lookups of one path return one directory. -/
  agree : ∀ p q path path' d d' fid fid', .ret p path (some (some d, fid)) ∈ events →
    .ret q path' (some (some d', fid')) ∈ events → tokens path = tokens path' → d = d'

variable [DecidableEq Dir] [DecidableEq Tab] [DecidableEq Caller]

/-- Lookups by any number of callers at once are safe, and a lookup that succeeds returns what the
resolver finds, whatever the other callers look up. What they do to the cache is a run of it. -/
theorem findFiles_resolve {image : Image} {entries : List UdfFileIdentifier}
    {s₀ : SharedLookups Dir Tab Caller} (hI : I.Faults image) (hopened : s₀.Opened root entries)
    (hrun : Run (Step I part root) s₀ es s) : Resolved image part entries s es ∧
      ∃ es', Run (SharedCache.Step I part root) s₀.cache es' s.cache := by
  have hstart : Inv I part root s₀ := by
    refine ⟨hopened.cache.good, fun p => ?_⟩
    rw [hopened.idle p, hopened.cache.idle p]
    rfl
  obtain ⟨hinv, hlater⟩ := hstart.run hrun
  have hentries : s.cache.memory.entries root = entries := by
    rw [hlater.entries root .root, hopened.entries]
  refine ⟨⟨fun p path hp => ?_, ?_, fun p path d fid hret hsteady => ?_,
    fun p path d fid hret hsteady => ?_, ?_⟩, hstart.run_cache hrun⟩
  · have hfind := hinv.finds p
    rw [hp] at hfind
    exact hfind
  · rintro p c _ hp rfl
    exact hinv.good.caller p c _ hp
  · rw [← hentries] at hsteady ⊢
    have hanswer := hstart.run_answers hrun hret
    exact hinv.good.resolves hI (hanswer.dir d fid rfl) hsteady
  · rw [← hentries] at hsteady ⊢
    have hanswer := hstart.run_answers hrun hret
    exact hinv.good.selects hI (hanswer.fid d fid rfl) hsteady
  · intro p q path path' d d' fid fid' hret hret' hpath
    have hd := (hstart.run_answers hrun hret).dir d fid rfl
    have hd' := (hstart.run_answers hrun hret').dir d' fid' rfl
    rw [← hpath] at hd'
    exact hd.unique hd'

end SharedLookups

/-! ### A directory that lists itself -/

theorem selfDir_steady : Steady selfImage selfPartitions selfDir.icb where
  ends := ⟨1, ((0, [selfDir]), ()), selfImage_read⟩
  copies loc _ := extentAgrees_noMirror rfl rfl loc
  plain := by
    intro fe g ad hread _ hcut
    have hentry : readEntryBlock (faultFree selfImage) selfPartitions selfDir.icb () =
        .ok (some { length := 0, fileType := 4, u := .data ([1, 1, 0, 0, 2] ++
          List.replicate 13 0 ++ [2, 2, 0, 8] ++ List.replicate 16 0 ++ [8, 0x64]) }, ()) := by
      decide +kernel
    rw [hentry] at hread
    cases hread
    cases hcut with
    | here hd => cases hd
    | next hd => cases hd

theorem selfImage_lists {entries : List UdfFileIdentifier}
    (h : Lists selfImage selfPartitions selfDir.icb entries) : entries = [selfDir] := by
  have hread : udfReadDir (faultFree selfImage) 1 selfPartitions selfDir.icb [] () =
      .ok ((0, [selfDir]), ()) := selfImage_read
  exact (lists_unique h hread).2.symm

theorem selfImage_steady (names : List Bytes) :
    OnPath selfImage selfPartitions (Steady selfImage selfPartitions) [selfDir] names := by
  intro k fid hsel hdir
  clear hdir
  have hfirst : ∀ name fid, firstNamed [selfDir] name = some fid → fid = selfDir := by
    intro name fid h
    simpa using List.mem_of_find?_eq_some h
  generalize hentries : [selfDir] = entries at hsel
  generalize names.take k = names' at hsel
  induction hsel with
  | last h =>
    subst hentries
    rw [hfirst _ _ h]
    exact selfDir_steady
  | cons h _ hlist _ ih =>
    subst hentries
    rw [hfirst _ _ h] at hlist
    exact ih (selfImage_lists hlist).symm

def selfLookups : SharedLookups ℕ ℕ ℕ where
  cache := selfCache
  finds := fun _ => none

/-- Two lookups of "d". Both find the slot empty, and caller 1 fills it first. -/
def twoLookups : List (FindEvent ℕ ℕ) :=
  .call 0 [0x64] :: List.replicate 8 (.step 0) ++
    .call 1 [0x64] :: List.replicate 9 (.step 1) ++ List.replicate 9 (.step 0) ++
    .ret 0 [0x64] (some (some 2, some selfDir)) :: List.replicate 4 (.step 1) ++
    [.ret 1 [0x64] (some (some 2, some selfDir))]

theorem findFiles_resolve_two : ∃ s,
    Run (SharedLookups.Step (faultFree selfImage) selfPartitions 0) selfLookups twoLookups s ∧
    s.cache.memory.status (.dir 1) = .freed ∧
    s.Resolved selfImage selfPartitions [selfDir] twoLookups ∧
    Resolves selfImage selfPartitions [selfDir] [[0x64]] (s.cache.memory.entries 2) := by
  have hrun : ∃ s, Run (SharedLookups.Step (faultFree selfImage) selfPartitions 0) selfLookups
      twoLookups s ∧ s.cache.memory.status (.dir 1) = .freed := by
    have htokens : tokens [0x64] = [[0x64]] := by decide
    have hdir : selfDir.IsDir := by
      unfold UdfFileIdentifier.IsDir
      decide
    refine ⟨?last, ?run, ?freed⟩
    case run =>
      refine .cons (.call rfl) ?_
      rw [htokens]
      refine .cons (.enter rfl (show _ = some 0 from rfl) rfl hdir) ?_
      refine .cons (.inside rfl (.isDir rfl (by decide))) ?_
      refine .cons (.inside rfl (.noSubdirs rfl)) ?_
      refine .cons (.inside rfl (.callocSubdirs (t := 0) rfl)) ?_
      refine .cons (.inside rfl (.casSubdirs rfl)) ?_
      refine .cons (.inside rfl (.ifSlot rfl)) ?_
      refine .cons (.inside rfl (.noSlot rfl)) ?_
      refine .cons (.inside rfl (.callocSubdir (d := 1) rfl)) ?_
      refine .cons (.call rfl) ?_
      rw [htokens]
      refine .cons (.enter rfl (show _ = some 0 from rfl) rfl hdir) ?_
      refine .cons (.inside rfl (.isDir rfl (by decide))) ?_
      refine .cons (.inside rfl (.hasSubdirs rfl)) ?_
      refine .cons (.inside rfl (.ifSlot rfl)) ?_
      refine .cons (.inside rfl (.noSlot rfl)) ?_
      refine .cons (.inside rfl (.callocSubdir (d := 2) rfl)) ?_
      refine .cons (.inside rfl (.readDir rfl selfImage_read (by decide))) ?_
      refine .cons (.inside rfl (.slotAddr rfl)) ?_
      refine .cons (.inside rfl (.casSlot rfl)) ?_
      refine .cons (.inside rfl (.readDir rfl selfImage_read (by decide))) ?_
      refine .cons (.inside rfl (.slotAddr rfl)) ?_
      refine .cons (.inside rfl (.casSlotLost rfl)) ?_
      refine .cons (.inside rfl .cleanLost) ?_
      refine .cons (.inside rfl .freeLost) ?_
      refine .cons (.inside rfl (.loadSlot rfl)) ?_
      refine .cons (.inside rfl .loadSlotOf) ?_
      refine .cons (.back rfl rfl) ?_
      refine .cons (.finish rfl) ?_
      refine .cons (.ret rfl) ?_
      refine .cons (.inside rfl (.loadSlot rfl)) ?_
      refine .cons (.inside rfl .loadSlotOf) ?_
      refine .cons (.back rfl rfl) ?_
      refine .cons (.finish rfl) ?_
      refine .cons (.ret rfl) ?_
      exact .nil _
    case freed => rfl
  obtain ⟨s, hrun, hfreed⟩ := hrun
  obtain ⟨hresolved, -⟩ := SharedLookups.findFiles_resolve (faults_of_part fun _ _ h => h)
    ⟨selfCache_opened, rfl, fun _ => rfl⟩ hrun
  refine ⟨s, hrun, hfreed, hresolved, ?_⟩
  exact hresolved.dir 0 [0x64] 2 (some selfDir) (by simp [twoLookups]) (selfImage_steady _)

end UdfRead
