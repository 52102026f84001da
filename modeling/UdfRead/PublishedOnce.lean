import UdfRead.SharedCache
import UdfRead.MinimalVolume

/-!
# UdfRead.PublishedOnce

The directory cache under concurrent callers is an instance of publication by
compare-and-exchange: `subdirs` and its slots are the cells, and what a caller has allocated and
not yet stored or freed is in its hand. What one step of one caller can do to the memory is said
once (`Effect`); the invariant of the cache follows from it.
-/

namespace UdfRead

open CModel

variable {σ Dir Tab Caller : Type}

namespace Memory

variable [DecidableEq Dir] [DecidableEq Tab] (m : Memory Dir Tab)

omit [DecidableEq Tab] in
@[simp]
theorem cell_setEntries (d : Dir) (es : List UdfFileIdentifier) :
    (m.setEntries d es).cell = m.cell := by
  funext k
  cases k <;> rfl

@[simp]
theorem cell_free (o : Object Dir Tab) : (m.free o).cell = m.cell := by
  funext k
  cases k <;> rfl

theorem cell_callocSubdirs {t : Tab} {n : ℕ} (h : ∀ i, m.slot t i = none) :
    (m.callocSubdirs t n).cell = m.cell := by
  funext k
  cases k with
  | subdirs d => rfl
  | slot t' i =>
    by_cases ht : t' = t
    · subst ht
      simp [cell, h]
    · simp [cell, ht]

theorem cell_callocSubdir {d : Dir} (h : m.subdirs d = none) :
    (m.callocSubdir d).cell = m.cell := by
  funext k
  cases k with
  | subdirs d' =>
    by_cases hd : d' = d
    · subst hd
      simp [cell, h]
    · simp [cell, hd]
  | slot t i => rfl

theorem cell_setSubdirs (d : Dir) (t : Tab) :
    (m.setSubdirs d t).cell = Function.update m.cell (.subdirs d) (some (.tab t)) := by
  funext k
  cases k with
  | subdirs d' =>
    by_cases hd : d' = d
    · subst hd
      simp [cell]
    · simp [cell, hd]
  | slot t' i => simp [cell]

theorem cell_setSlot (t : Tab) (i : ℕ) (d : Dir) :
    (m.setSlot t i d).cell = Function.update m.cell (.slot t i) (some (.dir d)) := by
  funext k
  cases k with
  | subdirs d' => simp [cell]
  | slot t' j =>
    by_cases ht : t' = t
    · subst ht
      by_cases hj : j = i
      · subst hj
        simp [cell]
      · simp [cell, hj]
    · simp [cell, ht]

variable {m}

omit [DecidableEq Dir] [DecidableEq Tab] in
@[simp]
theorem cell_subdirs_eq_none {d : Dir} : m.cell (.subdirs d) = none ↔ m.subdirs d = none := by
  simp [cell]

omit [DecidableEq Dir] [DecidableEq Tab] in
@[simp]
theorem cell_slot_eq_none {t : Tab} {i : ℕ} : m.cell (.slot t i) = none ↔ m.slot t i = none := by
  simp [cell]

omit [DecidableEq Dir] [DecidableEq Tab] in
@[simp]
theorem cell_subdirs_eq_some {d : Dir} {t : Tab} :
    m.cell (.subdirs d) = some (.tab t) ↔ m.subdirs d = some t := by
  simp [cell]

omit [DecidableEq Dir] [DecidableEq Tab] in
@[simp]
theorem cell_slot_eq_some {t : Tab} {i : ℕ} {d : Dir} :
    m.cell (.slot t i) = some (.dir d) ↔ m.slot t i = some d := by
  simp [cell]

section

variable {m' : Memory Dir Tab} (hcell : ∀ k o, m.cell k = some o → m'.cell k = some o)
include hcell

omit [DecidableEq Dir] [DecidableEq Tab] in
theorem subdirs_mono {d : Dir} {t : Tab} (ht : m.subdirs d = some t) : m'.subdirs d = some t :=
  cell_subdirs_eq_some.mp (hcell _ _ (cell_subdirs_eq_some.mpr ht))

omit [DecidableEq Dir] [DecidableEq Tab] in
theorem slot_mono {t : Tab} {i : ℕ} {d : Dir} (hd : m.slot t i = some d) :
    m'.slot t i = some d :=
  cell_slot_eq_some.mp (hcell _ _ (cell_slot_eq_some.mpr hd))

end

end Memory

/-! ## The cache as publication -/

namespace SharedCache

/-- The cells, and what the callers have in hand. -/
def view (s : SharedCache Dir Tab Caller) :
    Publish.State (Object Dir Tab) (Cell Dir Tab) Caller where
  status := s.memory.status
  cell := s.memory.cell
  hand p := (s.callers p).bind fun x => x.2.held

theorem hand_of_caller {s : SharedCache Dir Tab Caller} {p : Caller} {c : Call Dir}
    {a : At Dir Tab} (hp : s.callers p = some (c, a)) : s.view.hand p = a.held := by
  simp [view, hp]

theorem hand_update [DecidableEq Caller] (s : SharedCache Dir Tab Caller) (m : Memory Dir Tab)
    (p : Caller) (x : Option (Call Dir × At Dir Tab)) :
    (view ⟨m, Function.update s.callers p x⟩).hand =
      Function.update s.view.hand p (x.bind fun y => y.2.held) := by
  funext q
  by_cases hq : q = p
  · subst hq
    simp [view]
  · simp [view, hq]

end SharedCache

section

variable (I : BlockInput σ) (part : UdfPartitions)

/-- `entries` is all that the directory at `icb` has: a reading that did not fail. -/
def CompletelyRead (icb : LongAd) (entries : List UdfFileIdentifier) : Prop :=
  ∃ fuel st result st',
    udfReadDir I fuel part icb [] st = .ok ((result, entries), st') ∧ 0 ≤ result

/-- The entry of the call is a directory, and `entries` was read from it. -/
def ReadFor (m : Memory Dir Tab) (c : Call Dir) (entries : List UdfFileIdentifier) : Prop :=
  ∃ fid, (m.entries c.dir)[c.index]? = some fid ∧ CompletelyRead I part fid.icb entries

/-- The slot of the call points to `d`. -/
def Memory.Filled (m : Memory Dir Tab) (c : Call Dir) (d : Dir) : Prop :=
  ∃ t, m.subdirs c.dir = some t ∧ m.slot t c.index = some d

/-- What a caller relies on at each step. -/
def CallerOk (m : Memory Dir Tab) (c : Call Dir) : At Dir Tab → Prop
  | .flags | .ifSubdirs | .callocSubdirs | .cleanUnread _ | .freeUnread _ => True
  | .casSubdirs t => m.size t = (m.entries c.dir).length
  | .freeSubdirs _ | .ifSlot | .callocSubdir => ∃ t, m.subdirs c.dir = some t
  | .ifSlotOf t => m.subdirs c.dir = some t
  | .readDir d => (∃ t, m.subdirs c.dir = some t) ∧ m.entries d = []
  | .slotAddr d => (∃ t, m.subdirs c.dir = some t) ∧ ReadFor I part m c (m.entries d)
  | .casSlot t d => m.subdirs c.dir = some t ∧ ReadFor I part m c (m.entries d)
  | .cleanLost _ | .freeLost _ | .loadSlot => ∃ d, m.Filled c d
  | .loadSlotOf t => m.subdirs c.dir = some t ∧ ∃ d, m.Filled c d
  | .returned r => ∀ d, r = some d → m.Filled c d
  | .fault => False

/-- What one step can do to the memory, and to what the caller has in hand. -/
inductive Effect [DecidableEq Dir] [DecidableEq Tab] (c : Call Dir) (m : Memory Dir Tab) :
    Option (Object Dir Tab) → Memory Dir Tab → Option (Object Dir Tab) → Prop where
  | quiet {o} : Effect c m o m o
  | callocSubdirs {t n} : m.status (.tab t) = .unused →
      Effect c m none (m.callocSubdirs t n) (some (.tab t))
  | callocSubdir {d} : m.status (.dir d) = .unused →
      Effect c m none (m.callocSubdir d) (some (.dir d))
  | setEntries {d es} : Effect c m (some (.dir d)) (m.setEntries d es) (some (.dir d))
  | setSubdirs {t} : m.subdirs c.dir = none → m.size t = (m.entries c.dir).length →
      Effect c m (some (.tab t)) (m.setSubdirs c.dir t) none
  | setSlot {t d} : m.subdirs c.dir = some t → m.slot t c.index = none →
      ReadFor I part m c (m.entries d) →
      Effect c m (some (.dir d)) (m.setSlot t c.index d) none
  | free {o} : Effect c m (some o) (m.free o) none

variable {I part} [DecidableEq Dir] [DecidableEq Tab] {m m' : Memory Dir Tab} {c : Call Dir}
  {a a' : At Dir Tab}

theorem CacheStep.effect (h : CacheStep I part c m a m' a') (hok : CallerOk I part m c a)
    (hfault : ¬ m.Faults c a) : Effect I part c m a.held m' a'.held := by
  cases h with
  | notDir | isDir | noSubdirs | hasSubdirs | noSubdirsMemory | casSubdirsLost | ifSlot
  | noSlot | hasSlot | noSubdirMemory | slotAddr | casSlotLost | loadSlot | loadSlotOf =>
    exact .quiet
  | callocSubdirs hunused => exact .callocSubdirs hunused
  | callocSubdir hunused => exact .callocSubdir hunused
  | readDir | readDirFailed | cleanUnread | cleanLost => exact .setEntries
  | casSubdirs hnone => exact .setSubdirs hnone hok
  | casSlot hnone => exact .setSlot hok.1 hnone hok.2
  | freeSubdirs | freeUnread | freeLost => exact .free
  | fault hf => exact absurd hf hfault

/-- The caller that steps has what it relies on at its next step. -/
theorem CacheStep.callerOk (h : CacheStep I part c m a m' a') (hok : CallerOk I part m c a)
    (hlive : m.status (.dir c.dir) = .live) (hheld : ∀ d, a.held = some (.dir d) → c.dir ≠ d)
    (hfault : ¬ m.Faults c a) : CallerOk I part m' c a' := by
  cases h with
  | notDir _ _ => simp [CallerOk]
  | isDir _ _ => trivial
  | noSubdirs _ => trivial
  | hasSubdirs ht => exact ⟨_, ht⟩
  | callocSubdirs _ => simp [CallerOk]
  | noSubdirsMemory => simp [CallerOk]
  | casSubdirs _ => simp [CallerOk]
  | casSubdirsLost ht => exact ⟨_, ht⟩
  | freeSubdirs => exact hok
  | ifSlot ht => exact ht
  | noSlot _ => exact ⟨_, hok⟩
  | hasSlot hd => exact ⟨_, _, hok, hd⟩
  | @callocSubdir d hunused =>
    have hne : c.dir ≠ d := by
      intro heq
      rw [← heq, hlive] at hunused
      cases hunused
    simpa [CallerOk, hne] using hok
  | noSubdirMemory => simp [CallerOk]
  | @readDir d fid fuel st result entries st' hfid hread hres =>
    obtain ⟨ht, hnil⟩ := hok
    have hne := hheld d rfl
    rw [hnil] at hread
    refine ⟨ht, fid, ?_, ?_⟩
    · simpa [hne] using hfid
    · simpa using ⟨fuel, st, result, st', hread, hres⟩
  | readDirFailed _ _ _ => trivial
  | cleanUnread => trivial
  | freeUnread => simp [CallerOk]
  | slotAddr ht => exact ⟨ht, hok.2⟩
  | @casSlot t d hnone => exact ⟨d, t, hok.1, by simp⟩
  | casSlotLost hd => exact ⟨_, _, hok.1, hd⟩
  | cleanLost => exact hok
  | freeLost => exact hok
  | loadSlot ht => exact ⟨ht, hok⟩
  | @loadSlotOf t =>
    obtain ⟨ht, -⟩ := hok
    intro d hd
    exact ⟨t, ht, hd⟩
  | fault hf => exact hfault hf

namespace Effect

variable {o o' : Option (Object Dir Tab)} (h : Effect I part c m o m' o')
include h

/-- The entries of a directory that the caller does not have in hand are left alone. -/
theorem entries_eq {d : Dir} (hlive : m.status (.dir d) = .live) (hne : o ≠ some (.dir d)) :
    m'.entries d = m.entries d := by
  cases h with
  | quiet | callocSubdirs _ | setSubdirs _ _ | setSlot _ _ _ | free => rfl
  | @callocSubdir d' hunused =>
    have hd : d ≠ d' := by
      rintro rfl
      rw [hlive] at hunused
      cases hunused
    simp [hd]
  | @setEntries d' es =>
    have hd : d ≠ d' := by
      rintro rfl
      exact hne rfl
    simp [hd]

theorem size_eq {t : Tab} (hlive : m.status (.tab t) = .live) : m'.size t = m.size t := by
  cases h with
  | quiet | callocSubdir _ | setEntries | setSubdirs _ _ | setSlot _ _ _ | free => rfl
  | @callocSubdirs t' n hunused =>
    have ht : t ≠ t' := by
      rintro rfl
      rw [hlive] at hunused
      cases hunused
    simp [ht]

/-- Where a pointer to an array comes from. -/
theorem subdirs_cases {d : Dir} {t : Tab} (ht : m'.subdirs d = some t) :
    m.subdirs d = some t ∨
      d = c.dir ∧ o = some (.tab t) ∧ m.size t = (m.entries c.dir).length := by
  cases h with
  | quiet | callocSubdirs _ | setEntries | setSlot _ _ _ | free => exact .inl ht
  | @callocSubdir d' _ =>
    by_cases hd : d = d'
    · simp [hd] at ht
    · exact .inl (by simpa [hd] using ht)
  | @setSubdirs t' _ hsize =>
    by_cases hd : d = c.dir
    · obtain rfl : t' = t := by simpa [hd] using ht
      exact .inr ⟨hd, rfl, hsize⟩
    · exact .inl (by simpa [hd] using ht)

/-- Where a pointer in a slot comes from. -/
theorem slot_cases {t : Tab} {i : ℕ} {d : Dir} (hd : m'.slot t i = some d) :
    m.slot t i = some d ∨
      i = c.index ∧ m.subdirs c.dir = some t ∧ o = some (.dir d) ∧ m'.entries = m.entries ∧
        ReadFor I part m c (m.entries d) := by
  cases h with
  | quiet | callocSubdir _ | setEntries | setSubdirs _ _ | free => exact .inl hd
  | @callocSubdirs t' n _ =>
    by_cases ht : t = t'
    · simp [ht] at hd
    · exact .inl (by simpa [ht] using hd)
  | @setSlot t' d' ht' hnone hread =>
    by_cases ht : t = t'
    · subst ht
      by_cases hi : i = c.index
      · obtain rfl : d' = d := by simpa [hi] using hd
        exact .inr ⟨hi, ht', rfl, rfl, hread⟩
      · exact .inl (by simpa [hi] using hd)
    · exact .inl (by simpa [ht] using hd)

end Effect

omit [DecidableEq Dir] [DecidableEq Tab] in
theorem Memory.Filled.mono {d : Dir} (hcell : ∀ k o, m.cell k = some o → m'.cell k = some o)
    (h : m.Filled c d) : m'.Filled c d := by
  obtain ⟨t, ht, hd⟩ := h
  exact ⟨t, Memory.subdirs_mono hcell ht, Memory.slot_mono hcell hd⟩

omit [DecidableEq Dir] [DecidableEq Tab] in
/-- What a caller relies on outlasts the steps of the others: they fill empty pointers, and touch
neither the directory it works on nor what it has in hand. -/
theorem CallerOk.mono (hdir : m'.entries c.dir = m.entries c.dir)
    (hcell : ∀ k o, m.cell k = some o → m'.cell k = some o)
    (hsize : ∀ t, a.held = some (.tab t) → m'.size t = m.size t)
    (hentries : ∀ d, a.held = some (.dir d) → m'.entries d = m.entries d)
    (h : CallerOk I part m c a) : CallerOk I part m' c a := by
  have hsubdirs : ∀ t, m.subdirs c.dir = some t → m'.subdirs c.dir = some t :=
    fun t => Memory.subdirs_mono hcell
  have hfilled : ∀ d, m.Filled c d → m'.Filled c d := fun d => Memory.Filled.mono hcell
  have hread : ∀ es, ReadFor I part m c es → ReadFor I part m' c es := by
    rintro es ⟨fid, hfid, hes⟩
    exact ⟨fid, by rw [hdir, hfid], hes⟩
  cases a with
  | flags | ifSubdirs | callocSubdirs | cleanUnread _ | freeUnread _ => trivial
  | casSubdirs t => simpa only [CallerOk, hsize t rfl, hdir] using h
  | freeSubdirs _ | ifSlot | callocSubdir =>
    obtain ⟨t, ht⟩ := h
    exact ⟨t, hsubdirs _ ht⟩
  | ifSlotOf t => exact hsubdirs _ h
  | readDir d =>
    obtain ⟨⟨t, ht⟩, hnil⟩ := h
    exact ⟨⟨t, hsubdirs _ ht⟩, by rw [hentries d rfl, hnil]⟩
  | slotAddr d =>
    obtain ⟨⟨t, ht⟩, hes⟩ := h
    exact ⟨⟨t, hsubdirs _ ht⟩, by rw [hentries d rfl]; exact hread _ hes⟩
  | casSlot t d =>
    obtain ⟨ht, hes⟩ := h
    exact ⟨hsubdirs _ ht, by rw [hentries d rfl]; exact hread _ hes⟩
  | cleanLost _ | freeLost _ | loadSlot =>
    obtain ⟨d, hd⟩ := h
    exact ⟨d, hfilled d hd⟩
  | loadSlotOf t =>
    obtain ⟨ht, d, hd⟩ := h
    exact ⟨hsubdirs _ ht, d, hfilled d hd⟩
  | returned r =>
    intro d hd
    exact hfilled d (h d hd)
  | fault => exact h

end

/-! ## The invariant -/

namespace SharedCache

/-- Every array of slots has a slot for each entry of its directory, and every directory in a slot
was read from the entry of the slot. -/
structure Good (I : BlockInput σ) (part : UdfPartitions) (root : Dir)
    (s : SharedCache Dir Tab Caller) : Prop where
  published : Publish.Inv (.dir root) Cell.home s.view
  size : ∀ d t, s.memory.subdirs d = some t → s.memory.size t = (s.memory.entries d).length
  read : ∀ c d, s.memory.Filled c d → ReadFor I part s.memory c (s.memory.entries d)
  inTree : ∀ p c a, s.callers p = some (c, a) → s.memory.InTree root (.dir c.dir)
  index : ∀ p c a, s.callers p = some (c, a) → c.index < (s.memory.entries c.dir).length
  caller : ∀ p c a, s.callers p = some (c, a) → CallerOk I part s.memory c a

variable {I : BlockInput σ} {part : UdfPartitions} {root : Dir}
  {s s' : SharedCache Dir Tab Caller} {p : Caller} {c : Call Dir} {a a' : At Dir Tab}
  {m' : Memory Dir Tab} {e : CacheEvent Dir Caller} {es : List (CacheEvent Dir Caller)}

theorem Opened.good (h : s.Opened root) : Good I part root s where
  published := by
    refine .initial h.root_live (fun o ho => ?_) (fun k => ?_) fun p => ?_
    · by_contra hne
      cases (h.unused o hne).symm.trans ho
    · cases k with
      | subdirs d => simp [SharedCache.view, h.no_subdirs d]
      | slot t i => simp [SharedCache.view, h.no_slot t i]
    · simp [SharedCache.view, h.idle p]
  size := by simp [h.no_subdirs]
  read := by
    rintro c d ⟨t, ht, -⟩
    simp [h.no_subdirs] at ht
  inTree := by simp [h.idle]
  index := by simp [h.idle]
  caller := by simp [h.idle]

namespace Good

variable (h : Good I part root s)
include h

theorem held_live (hp : s.callers p = some (c, a)) {o : Object Dir Tab} (ho : a.held = some o) :
    s.memory.status o = .live :=
  h.published.hand_live p o (by rw [hand_of_caller hp, ho])

theorem dir_live (hp : s.callers p = some (c, a)) : s.memory.status (.dir c.dir) = .live :=
  h.published.published_live (h.inTree p c a hp)

theorem held_ne_inTree (hp : s.callers p = some (c, a)) {o o' : Object Dir Tab}
    (ho : a.held = some o) (ho' : s.memory.InTree root o') : o' ≠ o := by
  rintro rfl
  exact h.published.hidden (by rw [hand_of_caller hp, ho]) ho'

theorem subdirs_inTree {d : Dir} {t : Tab} (ht : s.memory.subdirs d = some t) :
    s.memory.InTree root (.dir d) :=
  h.published.cell_home (.subdirs d) (.tab t) (by simpa [SharedCache.view] using ht)

theorem tab_live {d : Dir} {t : Tab} (ht : s.memory.subdirs d = some t) :
    s.memory.status (.tab t) = .live :=
  h.published.cell_live (.subdirs d) (.tab t) (by simpa [SharedCache.view] using ht)

theorem tab_inTree {d : Dir} {t : Tab} (ht : s.memory.subdirs d = some t) :
    s.memory.InTree root (.tab t) := by
  have hk : s.memory.cell (.subdirs d) = some (.tab t) := by simpa using ht
  refine Publish.Published.child ?_ hk
  exact h.published.cell_home _ _ hk

theorem slot_inTree {t : Tab} {i : ℕ} {d : Dir} (hd : s.memory.slot t i = some d) :
    s.memory.InTree root (.dir d) := by
  have hk : s.memory.cell (.slot t i) = some (.dir d) := by simpa using hd
  refine Publish.Published.child ?_ hk
  exact h.published.cell_home _ _ hk

/-- No caller follows a `NULL` pointer, touches freed memory or leaves an array. -/
theorem not_faults (hp : s.callers p = some (c, a)) : ¬ s.memory.Faults c a := by
  have hdir := h.dir_live hp
  have hindex := h.index p c a hp
  have hok := h.caller p c a hp
  intro hf
  cases a with
  | flags =>
    obtain hf | hf := hf
    · exact hf hdir
    · omega
  | ifSubdirs | callocSubdirs | casSubdirs _ => exact hf hdir
  | freeSubdirs t => exact hf (h.held_live hp rfl)
  | ifSlot =>
    obtain ⟨t, ht⟩ := hok
    simp [Memory.Faults, hdir, ht] at hf
  | ifSlotOf t =>
    have hsize := h.size _ _ hok
    obtain hf | hf := hf
    · exact hf (h.tab_live hok)
    · omega
  | callocSubdir => exact hf
  | readDir d =>
    obtain hf | hf | hf := hf
    · exact hf hdir
    · omega
    · exact hf (h.held_live hp rfl)
  | cleanUnread d | freeUnread d | cleanLost d | freeLost d => exact hf (h.held_live hp rfl)
  | slotAddr d =>
    obtain ⟨⟨t, ht⟩, -⟩ := hok
    simp [Memory.Faults, hdir, ht] at hf
  | casSlot t d =>
    have hsize := h.size _ _ hok.1
    obtain hf | hf := hf
    · exact hf (h.tab_live hok.1)
    · omega
  | loadSlot =>
    obtain ⟨d, t, ht, -⟩ := hok
    simp [Memory.Faults, hdir, ht] at hf
  | loadSlotOf t =>
    have hsize := h.size _ _ hok.1
    obtain hf | hf := hf
    · exact hf (h.tab_live hok.1)
    · omega
  | returned r => exact hf
  | fault => exact hf

end Good

variable [DecidableEq Dir] [DecidableEq Tab]

namespace Good

variable (h : Good I part root s)
include h

theorem effect_entries (hp : s.callers p = some (c, a))
    (heffect : Effect I part c s.memory a.held m' a'.held) {d : Dir}
    (hd : s.memory.InTree root (.dir d)) : m'.entries d = s.memory.entries d :=
  heffect.entries_eq (h.published.published_live hd) fun ho => h.held_ne_inTree hp ho hd rfl

theorem effect_size (hp : s.callers p = some (c, a))
    (heffect : Effect I part c s.memory a.held m' a'.held) {d : Dir} {t : Tab}
    (ht : m'.subdirs d = some t) : m'.size t = (m'.entries d).length := by
  obtain hold | ⟨rfl, ho, hsize⟩ := heffect.subdirs_cases ht
  · rw [heffect.size_eq (h.tab_live hold), h.effect_entries hp heffect (h.subdirs_inTree hold)]
    exact h.size d t hold
  · rw [heffect.size_eq (h.held_live hp ho), h.effect_entries hp heffect (h.inTree p c a hp)]
    exact hsize

theorem effect_read (hp : s.callers p = some (c, a))
    (heffect : Effect I part c s.memory a.held m' a'.held) {c' : Call Dir} {d : Dir}
    (hfilled : m'.Filled c' d) : ReadFor I part m' c' (m'.entries d) := by
  obtain ⟨t, ht, hd⟩ := hfilled
  obtain hold | ⟨-, ho, -⟩ := heffect.subdirs_cases ht
  · obtain hold' | ⟨hi, ht', -, hentries, hread⟩ := heffect.slot_cases hd
    · obtain ⟨fid, hfid, hread⟩ := h.read c' d ⟨t, hold, hold'⟩
      refine ⟨fid, ?_, ?_⟩
      · rw [h.effect_entries hp heffect (h.subdirs_inTree hold), hfid]
      · rwa [h.effect_entries hp heffect (h.slot_inTree hold')]
    · -- the slot just filled belongs to no other directory
      have hdir : c'.dir = c.dir := by
        simpa using h.published.cell_inj (.subdirs c'.dir) (.subdirs c.dir) (.tab t)
          (Memory.cell_subdirs_eq_some.mpr hold) (Memory.cell_subdirs_eq_some.mpr ht')
      obtain ⟨fid, hfid, hread⟩ := hread
      refine ⟨fid, ?_, ?_⟩
      · rw [hentries, hdir, hi, hfid]
      · rwa [hentries]
  · -- the slots of an array just stored are empty
    obtain hold' | ⟨-, -, ho', -, -⟩ := heffect.slot_cases hd
    · have htab := h.published.cell_home (.slot t c'.index) (.dir d)
        (Memory.cell_slot_eq_some.mpr hold')
      exact absurd rfl (h.held_ne_inTree hp ho htab)
    · rw [ho] at ho'
      cases ho'

end Good

variable [DecidableEq Caller]

omit [DecidableEq Dir] [DecidableEq Tab] in
/-- A call and a return leave what the callers have in hand as it is. -/
theorem view_update {x : Option (Call Dir × At Dir Tab)} (hhand : s.view.hand p = none)
    (hnone : ∀ c a, x = some (c, a) → a.held = none) :
    view { s with callers := Function.update s.callers p x } = s.view := by
  have hx : x.bind (fun y => y.2.held) = none := by
    cases x with
    | none => rfl
    | some y => exact hnone y.1 y.2 rfl
  have hand := hand_update s s.memory p x
  rw [hx, ← hhand, Function.update_eq_self] at hand
  simp only [view] at hand ⊢
  rw [hand]

namespace Good

variable (h : Good I part root s)
include h

/-- Every step of a caller is a step of publication, or none. -/
theorem effect_view (hp : s.callers p = some (c, a))
    (heffect : Effect I part c s.memory a.held m' a'.held) :
    view ⟨m', Function.update s.callers p (some (c, a'))⟩ = s.view ∨
      Publish.Step (.dir root) Cell.home s.view
        (view ⟨m', Function.update s.callers p (some (c, a'))⟩) := by
  have hhand := hand_of_caller hp
  have hand := hand_update s m' p (some (c, a'))
  generalize a.held = o at heffect hhand
  simp only [Option.bind_some] at hand
  generalize a'.held = o' at heffect hand
  have hview : view ⟨m', Function.update s.callers p (some (c, a'))⟩ =
      ⟨m'.status, m'.cell, Function.update s.view.hand p o'⟩ := by
    rw [← hand]
    rfl
  rw [hview]
  cases heffect with
  | quiet =>
    refine .inl ?_
    rw [← hhand, Function.update_eq_self]
    rfl
  | @callocSubdirs t n hunused =>
    refine .inr ?_
    rw [Memory.cell_callocSubdirs _ fun i => ?_]
    · exact .take hhand hunused
    · exact Memory.cell_slot_eq_none.mp
        (h.published.cell_none_of_unused (k := .slot t i) hunused)
  | @callocSubdir d hunused =>
    refine .inr ?_
    rw [Memory.cell_callocSubdir]
    · exact .take hhand hunused
    · exact Memory.cell_subdirs_eq_none.mp
        (h.published.cell_none_of_unused (k := .subdirs d) hunused)
  | setEntries =>
    refine .inl ?_
    rw [← hhand, Function.update_eq_self, Memory.cell_setEntries]
    rfl
  | @setSubdirs t hnone _ =>
    refine .inr ?_
    rw [Memory.cell_setSubdirs]
    exact .publish hhand (h.inTree p c a hp) (Memory.cell_subdirs_eq_none.mpr hnone)
  | @setSlot t d ht hnone _ =>
    refine .inr ?_
    rw [Memory.cell_setSlot]
    exact .publish hhand (h.tab_inTree ht) (Memory.cell_slot_eq_none.mpr hnone)
  | free =>
    refine .inr ?_
    rw [Memory.cell_free]
    exact .discard hhand

theorem effect_cell (hp : s.callers p = some (c, a))
    (heffect : Effect I part c s.memory a.held m' a'.held) {k : Cell Dir Tab} {o : Object Dir Tab}
    (hk : s.memory.cell k = some o) : m'.cell k = some o :=
  Publish.maybe_cell (h.effect_view hp heffect) hk

omit [DecidableEq Dir] [DecidableEq Tab] in
theorem update_caller {x : Option (Call Dir × At Dir Tab)} (hhand : s.view.hand p = none)
    (hnone : ∀ c a, x = some (c, a) → a.held = none ∧ s.memory.InTree root (.dir c.dir) ∧
      c.index < (s.memory.entries c.dir).length ∧ CallerOk I part s.memory c a) :
    Good I part root { s with callers := Function.update s.callers p x } := by
  have hview := view_update (x := x) hhand fun c a hx => (hnone c a hx).1
  have hcallers : ∀ q c a, Function.update s.callers p x q = some (c, a) →
      x = some (c, a) ∨ s.callers q = some (c, a) := by
    intro q c a hq
    by_cases hqp : q = p
    · subst hqp
      exact .inl (by simpa using hq)
    · exact .inr (by simpa [hqp] using hq)
  refine ⟨by rw [hview]; exact h.published, h.size, h.read, ?_, ?_, ?_⟩
  · intro q c a hq
    obtain hq | hq := hcallers q c a hq
    · exact (hnone c a hq).2.1
    · exact h.inTree q c a hq
  · intro q c a hq
    obtain hq | hq := hcallers q c a hq
    · exact (hnone c a hq).2.2.1
    · exact h.index q c a hq
  · intro q c a hq
    obtain hq | hq := hcallers q c a hq
    · exact (hnone c a hq).2.2.2
    · exact h.caller q c a hq

theorem step_caller (hp : s.callers p = some (c, a)) (hs : CacheStep I part c s.memory a m' a') :
    Good I part root ⟨m', Function.update s.callers p (some (c, a'))⟩ := by
  have hfault := h.not_faults hp
  have hok := h.caller p c a hp
  have heffect := hs.effect hok hfault
  have hcell : ∀ k o, s.memory.cell k = some o → m'.cell k = some o :=
    fun k o => h.effect_cell hp heffect
  have hcallers : ∀ q c₁ a₁, Function.update s.callers p (some (c, a')) q = some (c₁, a₁) →
      q = p ∧ c₁ = c ∧ a₁ = a' ∨ q ≠ p ∧ s.callers q = some (c₁, a₁) := by
    intro q c₁ a₁ hq
    by_cases hqp : q = p
    · subst hqp
      obtain ⟨rfl, rfl⟩ : c = c₁ ∧ a' = a₁ := by simpa using hq
      exact .inl ⟨rfl, rfl, rfl⟩
    · exact .inr ⟨hqp, by simpa [hqp] using hq⟩
  have hpast : ∀ q c₁ a₁, Function.update s.callers p (some (c, a')) q = some (c₁, a₁) →
      ∃ a₀, s.callers q = some (c₁, a₀) := by
    intro q c₁ a₁ hq
    obtain ⟨rfl, rfl, -⟩ | ⟨-, hq⟩ := hcallers q c₁ a₁ hq
    · exact ⟨a, hp⟩
    · exact ⟨a₁, hq⟩
  refine ⟨?_, fun d t => h.effect_size hp heffect, fun c' d => h.effect_read hp heffect,
    ?_, ?_, ?_⟩
  · exact h.published.maybe (h.effect_view hp heffect)
  · intro q c₁ a₁ hq
    obtain ⟨a₀, hq⟩ := hpast q c₁ a₁ hq
    exact (h.inTree q c₁ a₀ hq).mono hcell
  · intro q c₁ a₁ hq
    obtain ⟨a₀, hq⟩ := hpast q c₁ a₁ hq
    simp only [h.effect_entries hp heffect (h.inTree q c₁ a₀ hq)]
    exact h.index q c₁ a₀ hq
  · intro q c₁ a₁ hq
    obtain ⟨-, rfl, rfl⟩ | ⟨hqp, hq⟩ := hcallers q c₁ a₁ hq
    · refine hs.callerOk hok (h.dir_live hp) (fun d hd heq => ?_) hfault
      exact h.held_ne_inTree hp hd (h.inTree p _ a hp) (by rw [heq])
    · -- another caller has other objects in hand
      have hheld : ∀ o, a₁.held = some o → a.held ≠ some o := by
        intro o ho ho'
        refine hqp (h.published.hand_inj q p o ?_ ?_)
        · rw [hand_of_caller hq, ho]
        · rw [hand_of_caller hp, ho']
      refine CallerOk.mono (h.effect_entries hp heffect (h.inTree q c₁ a₁ hq)) hcell
        (fun t ht => heffect.size_eq (h.held_live hq ht))
        (fun d hd => heffect.entries_eq (h.held_live hq hd) (hheld _ hd)) (h.caller q c₁ a₁ hq)

theorem step (hs : Step I part root s e s') : Good I part root s' := by
  cases hs with
  | @call p c hnone htree hindex =>
    refine h.update_caller (by simp [view, hnone]) ?_
    rintro _ _ ⟨⟩
    exact ⟨rfl, htree, hindex, trivial⟩
  | step hp hs => exact h.step_caller hp hs
  | @ret p c r hp => exact h.update_caller (by simp [view, hp]) (by simp)

/-- The system refines publication. -/
theorem step_view (hs : Step I part root s e s') :
    s'.view = s.view ∨ Publish.Step (.dir root) Cell.home s.view s'.view := by
  cases hs with
  | @call p c hnone _ _ =>
    exact .inl (view_update (by simp [view, hnone]) (by simp))
  | @step p c a m' a' hp hs =>
    exact h.effect_view hp (hs.effect (h.caller p c a hp) (h.not_faults hp))
  | @ret p c r hp => exact .inl (view_update (by simp [view, hp]) (by simp))

theorem step_cell (hs : Step I part root s e s') {k : Cell Dir Tab} {o : Object Dir Tab}
    (hk : s.memory.cell k = some o) : s'.memory.cell k = some o :=
  Publish.maybe_cell (h.step_view hs) hk

theorem step_freed (hs : Step I part root s e s') {o : Object Dir Tab}
    (ho : s.memory.status o = .freed) : s'.memory.status o = .freed :=
  Publish.maybe_freed (h.step_view hs) h.published ho

theorem run (hrun : Run (Step I part root) s es s') : Good I part root s' :=
  hrun.invariant (fun _ _ _ h hs => h.step hs) h

theorem run_cell (hrun : Run (Step I part root) s es s') {k : Cell Dir Tab} {o : Object Dir Tab}
    (hk : s.memory.cell k = some o) : s'.memory.cell k = some o := by
  induction hrun with
  | nil s => exact hk
  | cons hs _ ih => exact ih (h.step hs) (h.step_cell hs hk)

theorem run_freed (hrun : Run (Step I part root) s es s') {o : Object Dir Tab}
    (ho : s.memory.status o = .freed) : s'.memory.status o = .freed := by
  induction hrun with
  | nil s => exact ho
  | cons hs _ ih => exact ih (h.step hs) (h.step_freed hs ho)

/-- What has been returned is what the slot points to from then on. -/
theorem run_returned (hrun : Run (Step I part root) s es s') {d : Dir}
    (hret : .ret p c (some d) ∈ es) : s'.memory.Filled c d := by
  induction hrun with
  | nil s => simp at hret
  | @cons s s₁ s' e es hs hrest ih =>
    have h₁ := h.step hs
    obtain rfl | hmem := List.mem_cons.mp hret
    · cases hs with
      | ret hp =>
        have hfilled := h.caller p c _ hp d rfl
        exact hfilled.mono fun k o => h₁.run_cell hrest
    · exact ih h₁ hmem

end Good

/-- What holds of a state `s` of the cache, a later state `s'`, and the events up to `s'`. -/
structure PublishedOnce (I : BlockInput σ) (part : UdfPartitions) (root : Dir)
    (s s' : SharedCache Dir Tab Caller) (events : List (CacheEvent Dir Caller)) : Prop where
  safe : ∀ p c a, s.callers p = some (c, a) → a ≠ .fault
  subdirs_stay : ∀ d t, s.memory.subdirs d = some t → s'.memory.subdirs d = some t
  slot_stays : ∀ t i d, s.memory.slot t i = some d → s'.memory.slot t i = some d
  /-- What has been freed is in no cell, and no call returns it. -/
  freed : ∀ o, s.memory.status o = .freed →
    (∀ k, s'.memory.cell k ≠ some o) ∧ ∀ p c d, .ret p c (some d) ∈ events → .dir d ≠ o
  agree : ∀ p q c d d',
    .ret p c (some d) ∈ events → .ret q c (some d') ∈ events → d = d'
  read : ∀ p c d, .ret p c (some d) ∈ events →
    ∃ fid, (s'.memory.entries c.dir)[c.index]? = some fid ∧
      CompletelyRead I part fid.icb (s'.memory.entries d)
  /-- With no call under way, what was allocated is either in the tree or freed. -/
  settled : (∀ p, s.callers p = none) → ∀ o, s.memory.status o ≠ .unused →
    (s.memory.InTree root o ↔ s.memory.status o ≠ .freed)

/-- Concurrent calls of `_cache_subdir` publish each directory once. `s` is any state that is
reached after the volume was opened, and `s'` any later one. -/
theorem cacheSubdir_publishedOnce {s₀ : SharedCache Dir Tab Caller}
    {es' : List (CacheEvent Dir Caller)} (hopened : s₀.Opened root)
    (hrun : Run (Step I part root) s₀ es s) (hrun' : Run (Step I part root) s es' s') :
    PublishedOnce I part root s s' (es ++ es') := by
  have hgood : Good I part root s := (hopened.good).run hrun
  have hgood' := hgood.run hrun'
  have hcell : ∀ k o, s.memory.cell k = some o → s'.memory.cell k = some o :=
    fun k o => hgood.run_cell hrun'
  have hreturned : ∀ p c d, .ret p c (some d) ∈ es ++ es' → s'.memory.Filled c d :=
    fun p c d => (hopened.good).run_returned (hrun.append hrun')
  have hpublished : ∀ o, s.memory.status o = .freed → ¬ s'.memory.InTree root o := by
    intro o ho htree
    have hlive : s'.memory.status o = .live := hgood'.published.published_live htree
    rw [hgood.run_freed hrun' ho] at hlive
    cases hlive
  refine ⟨?_, ?_, ?_, ?_, ?_, ?_, ?_⟩
  · rintro p c _ hp rfl
    exact hgood.caller p c _ hp
  · intro d t ht
    exact Memory.subdirs_mono hcell ht
  · intro t i d hd
    exact Memory.slot_mono hcell hd
  · intro o ho
    refine ⟨fun k hk => ?_, fun p c d hret heq => ?_⟩
    · refine hpublished o ho (.child ?_ hk)
      exact hgood'.published.cell_home k o hk
    · obtain ⟨t, -, hd⟩ := hreturned p c d hret
      exact hpublished o ho (heq ▸ hgood'.slot_inTree hd)
  · intro p q c d d' hret hret'
    obtain ⟨t, ht, hd⟩ := hreturned p c d hret
    obtain ⟨t', ht', hd'⟩ := hreturned q c d' hret'
    obtain rfl : t = t' := Option.some.inj (ht.symm.trans ht')
    exact Option.some.inj (hd.symm.trans hd')
  · intro p c d hret
    exact hgood'.read c d (hreturned p c d hret)
  · intro hidle o ho
    constructor
    · intro htree hfreed
      have hlive : s.memory.status o = .live := hgood.published.published_live htree
      rw [hfreed] at hlive
      cases hlive
    · intro hfreed
      refine (hgood.published.settled (fun p => ?_) ho).resolve_right hfreed
      simp [view, hidle p]

end SharedCache

/-! ### A race -/

/-- Directory "d" is block 0 of the partition, which is the directory that lists it. -/
def selfDir : UdfFileIdentifier where
  filename := [0x64]
  icb := { lba := 0, length := 2048, partition := 0, extentType := 0 }
  characteristic := 2

def selfImage : Image := fun lba =>
  if lba = 300 then
    some (inlineDirBlock ([1, 1, 0, 0, 2] ++ List.replicate 13 0 ++ [2, 2, 0, 8] ++
      List.replicate 16 0 ++ [8, 0x64]))
  else none

def selfPartitions : UdfPartitions where
  numPartition := 1
  p0 := { number := 0, lba := 300, mirrorLba := 0 }
  p1 := { number := 0, lba := 0, mirrorLba := 0 }

theorem selfImage_read :
    udfReadDir (.ofImage selfImage none) 1 selfPartitions selfDir.icb [] () =
      .ok ((0, [selfDir]), ()) := by
  decide +kernel

/-- Nothing cached, with directories, arrays and callers that are numbered. -/
def selfCache : SharedCache ℕ ℕ ℕ where
  memory :=
    { status := fun o => if o = .dir 0 then .live else .unused
      entries := fun _ => [selfDir]
      subdirs := fun _ => none
      slot := fun _ _ => none
      size := fun _ => 0 }
  callers := fun _ => none

theorem selfCache_opened : selfCache.Opened 0 where
  idle _ := rfl
  root_live := rfl
  unused _ ho := if_neg ho
  no_subdirs _ := rfl
  no_slot _ _ := rfl

/-- Both callers find the slot empty. Caller 1 fills it first. -/
def raceEvents : List (CacheEvent ℕ ℕ) :=
  let lookup : Call ℕ := ⟨0, 0⟩
  [.call 0 lookup, .step 0, .step 0, .step 0, .step 0, .step 0, .step 0, .step 0,
    .call 1 lookup, .step 1, .step 1, .step 1, .step 1, .step 1, .step 1, .step 1, .step 1,
    .step 0, .step 0, .step 0, .step 0, .step 0, .step 0, .step 0, .ret 0 lookup (some 2),
    .step 1, .step 1, .ret 1 lookup (some 2)]

theorem cacheSubdir_publishedOnce_race :
    ∃ s, Run (SharedCache.Step (.ofImage selfImage none) selfPartitions 0) selfCache raceEvents s ∧
      s.memory.status (.dir 1) = .freed ∧
      s.PublishedOnce (.ofImage selfImage none) selfPartitions 0 s raceEvents := by
  have hrun : ∃ s, Run (SharedCache.Step (.ofImage selfImage none) selfPartitions 0) selfCache
      raceEvents s ∧ s.memory.status (.dir 1) = .freed := by
    refine ⟨?last, ?run, ?freed⟩
    case run =>
      refine .cons (.call rfl .root (by decide)) ?_
      refine .cons (.step rfl (.isDir rfl (by decide))) ?_
      refine .cons (.step rfl (.noSubdirs rfl)) ?_
      refine .cons (.step rfl (.callocSubdirs (t := 0) rfl)) ?_
      refine .cons (.step rfl (.casSubdirs rfl)) ?_
      refine .cons (.step rfl (.ifSlot rfl)) ?_
      refine .cons (.step rfl (.noSlot rfl)) ?_
      refine .cons (.step rfl (.callocSubdir (d := 1) rfl)) ?_
      refine .cons (.call rfl .root (by decide)) ?_
      refine .cons (.step rfl (.isDir rfl (by decide))) ?_
      refine .cons (.step rfl (.hasSubdirs rfl)) ?_
      refine .cons (.step rfl (.ifSlot rfl)) ?_
      refine .cons (.step rfl (.noSlot rfl)) ?_
      refine .cons (.step rfl (.callocSubdir (d := 2) rfl)) ?_
      refine .cons (.step rfl (.readDir rfl selfImage_read (by decide))) ?_
      refine .cons (.step rfl (.slotAddr rfl)) ?_
      refine .cons (.step rfl (.casSlot rfl)) ?_
      refine .cons (.step rfl (.readDir rfl selfImage_read (by decide))) ?_
      refine .cons (.step rfl (.slotAddr rfl)) ?_
      refine .cons (.step rfl (.casSlotLost rfl)) ?_
      refine .cons (.step rfl .cleanLost) ?_
      refine .cons (.step rfl .freeLost) ?_
      refine .cons (.step rfl (.loadSlot rfl)) ?_
      refine .cons (.step rfl .loadSlotOf) ?_
      refine .cons (.ret rfl) ?_
      refine .cons (.step rfl (.loadSlot rfl)) ?_
      refine .cons (.step rfl .loadSlotOf) ?_
      refine .cons (.ret rfl) ?_
      exact .nil _
    case freed => rfl
  obtain ⟨s, hrun, hfreed⟩ := hrun
  refine ⟨s, hrun, hfreed, ?_⟩
  have h := SharedCache.cacheSubdir_publishedOnce selfCache_opened hrun (.nil s)
  rwa [List.append_nil] at h

end UdfRead
