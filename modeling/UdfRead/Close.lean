import UdfRead.PublishedOnce
import UdfRead.Lib.PublishedTree

/-!
# UdfRead.Close

`udfread_close`. `_clean_tree` walks over the cached directories and frees each object behind those
below it. Whatever calls have been running on the handle, closing it ends, frees nothing twice and
follows no freed pointer, and leaves nothing behind (`udfreadClose_frees`).
-/

namespace UdfRead

open CModel

variable {σ Dir Tab Caller : Type}

namespace Memory

variable [DecidableEq Dir] [DecidableEq Tab]

@[simps]
def clearSubdirs (m : Memory Dir Tab) (d : Dir) : Memory Dir Tab :=
  { m with subdirs := Function.update m.subdirs d none }

@[simps]
def clearSlot (m : Memory Dir Tab) (t : Tab) (i : ℕ) : Memory Dir Tab :=
  { m with slot := Function.update m.slot t (Function.update (m.slot t) i none) }

/-- `free(p)`. What is not allocated must not be freed. -/
def release (m : Memory Dir Tab) : Option (Object Dir Tab) → Res (Memory Dir Tab)
  | none => .ok m
  | some o => if m.status o = .live then .ok (m.free o) else .error .outOfBounds

omit [DecidableEq Dir] [DecidableEq Tab] in
/-- The array of the expression `p->subdirs[i]`. -/
def subdirsAt (m : Memory Dir Tab) (p : Dir) (i : ℕ) : Res Tab :=
  if m.status (.dir p) ≠ .live then .error .outOfBounds
  else
    match m.subdirs p with
    | none => .error .outOfBounds
    | some t => if m.status (.tab t) = .live ∧ i < m.size t then .ok t else .error .outOfBounds

end Memory

section

variable [DecidableEq Dir] [DecidableEq Tab]

/-- The loop of `_clean_tree` over the slots from `i` on, `n` of them left. -/
def cleanSlots (clean : Memory Dir Tab → Option Dir → Res (Memory Dir Tab)) (p : Dir) :
    (n i : ℕ) → Memory Dir Tab → Res (Memory Dir Tab)
  | 0, _, m => .ok m
  | n + 1, i, m => do
    let t ← m.subdirsAt p i
    let m ← clean m (m.slot t i)
    let t ← m.subdirsAt p i
    let m ← m.release ((m.slot t i).map .dir)
    let t ← m.subdirsAt p i
    cleanSlots clean p n (i + 1) (m.clearSlot t i)

/-- `_clean_tree`; `udf_clean_dir_entries` leaves no entries. -/
def cleanTree : (fuel : ℕ) → Memory Dir Tab → Option Dir → Res (Memory Dir Tab)
  | _, m, none => .ok m
  | 0, _, some _ => .error .outOfFuel
  | fuel + 1, m, some p =>
    if m.status (.dir p) ≠ .live then .error .outOfBounds
    else do
      let m ← match m.subdirs p with
        | none => .ok m
        | some _ => do
          let m ← cleanSlots (cleanTree fuel) p (m.entries p).length 0 m
          let m ← m.release ((m.subdirs p).map .tab)
          .ok (m.clearSubdirs p)
      return m.setEntries p []

/-- `udfread_close`: `udf->root_dir` lies in the handle, and is freed with it. -/
def udfreadClose (fuel : ℕ) (m : Memory Dir Tab) (root : Dir) : Res (Memory Dir Tab) := do
  let m ← cleanTree fuel m (some root)
  m.release (some (.dir root))

/-! ## What a step leaves alone -/

namespace Memory

omit [DecidableEq Dir] [DecidableEq Tab] in
/-- The object is in both memories the same. -/
def SameAt (m m' : Memory Dir Tab) : Object Dir Tab → Prop
  | .dir d => m.status (.dir d) = m'.status (.dir d) ∧ m.entries d = m'.entries d ∧
      m.subdirs d = m'.subdirs d
  | .tab t => m.status (.tab t) = m'.status (.tab t) ∧ m.slot t = m'.slot t ∧ m.size t = m'.size t

variable {m m' m'' : Memory Dir Tab} {o x : Object Dir Tab}

omit [DecidableEq Dir] [DecidableEq Tab] in
theorem SameAt.refl (m : Memory Dir Tab) (o : Object Dir Tab) : m.SameAt m o := by
  cases o with
  | dir d => exact ⟨rfl, rfl, rfl⟩
  | tab t => exact ⟨rfl, rfl, rfl⟩

omit [DecidableEq Dir] [DecidableEq Tab] in
theorem SameAt.trans (h : m.SameAt m' o) (h' : m'.SameAt m'' o) : m.SameAt m'' o := by
  cases o with
  | dir d => exact ⟨h.1.trans h'.1, h.2.1.trans h'.2.1, h.2.2.trans h'.2.2⟩
  | tab t => exact ⟨h.1.trans h'.1, h.2.1.trans h'.2.1, h.2.2.trans h'.2.2⟩

omit [DecidableEq Dir] [DecidableEq Tab] in
theorem SameAt.status (h : m.SameAt m' o) : m.status o = m'.status o := by
  cases o with
  | dir d => exact h.1
  | tab t => exact h.1

theorem sameAt_free (h : o ≠ x) : (m.free x).SameAt m o := by
  cases o with
  | dir d => exact ⟨by simp [h], rfl, rfl⟩
  | tab t => exact ⟨by simp [h], rfl, rfl⟩

omit [DecidableEq Dir] in
theorem sameAt_clearSlot {t : Tab} {i : ℕ} (h : o ≠ .tab t) : (m.clearSlot t i).SameAt m o := by
  cases o with
  | dir d => exact ⟨rfl, rfl, rfl⟩
  | tab t' =>
    have ht : t' ≠ t := fun heq => h (by rw [heq])
    exact ⟨rfl, Function.update_of_ne ht _ _, rfl⟩

omit [DecidableEq Tab] in
theorem sameAt_clearSubdirs {d : Dir} (h : o ≠ .dir d) : (m.clearSubdirs d).SameAt m o := by
  cases o with
  | dir d' =>
    have hd : d' ≠ d := fun heq => h (by rw [heq])
    exact ⟨rfl, rfl, by simp [hd]⟩
  | tab t => exact ⟨rfl, rfl, rfl⟩

omit [DecidableEq Tab] in
theorem sameAt_setEntries {d : Dir} {es : List UdfFileIdentifier} (h : o ≠ .dir d) :
    (m.setEntries d es).SameAt m o := by
  cases o with
  | dir d' =>
    have hd : d' ≠ d := fun heq => h (by rw [heq])
    exact ⟨rfl, by simp [hd], rfl⟩
  | tab t => exact ⟨rfl, rfl, rfl⟩

omit [DecidableEq Dir] [DecidableEq Tab] in
theorem subdirsAt_ok {p : Dir} {t : Tab} {i : ℕ} (hp : m.status (.dir p) = .live)
    (ht : m.subdirs p = some t) (htab : m.status (.tab t) = .live) (hi : i < m.size t) :
    m.subdirsAt p i = .ok t := by
  unfold subdirsAt
  rw [if_neg (not_not_intro hp), ht]
  exact if_pos ⟨htab, hi⟩

theorem release_live (h : m.status x = .live) : m.release (some x) = .ok (m.free x) := if_pos h

end Memory

/-! ## Cleaning a tree -/

namespace SharedCache

variable {I : BlockInput σ} {part : UdfPartitions} {root : Dir} {s : SharedCache Dir Tab Caller}
  {rank : Object Dir Tab → ℕ} {p : Dir} {t : Tab} {i : ℕ} {m m' : Memory Dir Tab}
  {clean : Memory Dir Tab → Option Dir → Res (Memory Dir Tab)}

/-- What hangs below an object of the memory. -/
def Below (s : SharedCache Dir Tab Caller) (o : Object Dir Tab) : Object Dir Tab → Prop :=
  Publish.Published o Cell.home s.memory.cell

/-- What is left of `m` when all below directory `p` has been cleaned. -/
structure Cleaned (s : SharedCache Dir Tab Caller) (p : Dir) (m m' : Memory Dir Tab) : Prop where
  live : m'.status (.dir p) = .live
  freed : ∀ o, s.Below (.dir p) o → o ≠ .dir p → m'.status o = .freed
  frame : ∀ o, ¬ s.Below (.dir p) o → m'.SameAt m o

/-- The loop of `_clean_tree` at slot `i`: what hangs below the slots left is as it was. -/
structure Cleaning (s : SharedCache Dir Tab Caller) (p : Dir) (t : Tab) (i : ℕ)
    (m : Memory Dir Tab) : Prop where
  dir : m.SameAt s.memory (.dir p)
  live : m.status (.tab t) = .live
  size : m.size t = s.memory.size t
  slots : ∀ j, i ≤ j → m.slot t j = s.memory.slot t j
  rest : ∀ j c o, i ≤ j → s.memory.slot t j = some c → s.Below (.dir c) o → m.SameAt s.memory o

/-- `clean` cleans what hangs below the slots of an array. -/
def CleansSlots (s : SharedCache Dir Tab Caller) (t : Tab)
    (clean : Memory Dir Tab → Option Dir → Res (Memory Dir Tab)) : Prop :=
  (∀ m, clean m none = .ok m) ∧ ∀ i c m, s.memory.slot t i = some c →
    (∀ o, s.Below (.dir c) o → m.SameAt s.memory o) →
    ∃ m', clean m (some c) = .ok m' ∧ s.Cleaned c m m'

omit [DecidableEq Dir] [DecidableEq Tab] in
theorem below_tab (ht : s.memory.subdirs p = some t) : s.Below (.dir p) (.tab t) := by
  show Publish.Published (Cell.home (.subdirs p)) Cell.home s.memory.cell (.tab t)
  exact .of_cell (Memory.cell_subdirs_eq_some.mpr ht)

omit [DecidableEq Dir] [DecidableEq Tab] in
theorem below_slot {c : Dir} (hc : s.memory.slot t i = some c) : s.Below (.tab t) (.dir c) := by
  show Publish.Published (Cell.home (.slot t i)) Cell.home s.memory.cell (.dir c)
  exact .of_cell (Memory.cell_slot_eq_some.mpr hc)

namespace Good

omit [DecidableEq Dir] [DecidableEq Tab] in
/-- A filled slot is one of the array. -/
theorem slot_lt (h : Good I part root s) {d : Dir} (hd : s.memory.slot t i = some d) :
    i < s.memory.size t := by
  have htree := h.published.cell_home (.slot t i) (.dir d) (Memory.cell_slot_eq_some.mpr hd)
  obtain heq | ⟨k, hk⟩ := htree.root_or_held
  · cases heq
  · cases k with
    | slot t' j =>
      obtain ⟨x, -, hx⟩ := Option.map_eq_some_iff.mp hk
      cases hx
    | subdirs d' =>
      have ht : s.memory.subdirs d' = some t := Memory.cell_subdirs_eq_some.mp hk
      obtain ⟨fid, hfid, -⟩ := h.read ⟨d', i⟩ d ⟨t, ht, hd⟩
      rw [h.size d' t ht]
      exact (List.getElem?_eq_some_iff.mp hfid).1

variable (h : Good I part root s) (hrank : ∀ k o, s.memory.cell k = some o → rank o < rank k.home)
include h hrank

/-- One turn of the loop. -/
theorem cleanSlots_turn (hclean : s.CleansSlots t clean) (ht : s.memory.subdirs p = some t)
    (hc : s.Cleaning p t i m) (hi : i < s.memory.size t) (n : ℕ) :
    ∃ m', cleanSlots clean p (n + 1) i m = cleanSlots clean p n (i + 1) m' ∧
      s.Cleaning p t (i + 1) m' ∧
      (∀ c o, s.memory.slot t i = some c → s.Below (.dir c) o → m'.status o = .freed) ∧
      ∀ o, o ≠ .tab t → (∀ c, s.memory.slot t i = some c → ¬ s.Below (.dir c) o) →
        m'.SameAt m o := by
  have hp : m.status (.dir p) = .live := by
    rw [hc.dir.status]
    exact h.published.published_live (h.subdirs_inTree ht)
  have hsub : m.subdirs p = some t := by rw [hc.dir.2.2, ht]
  have hat : m.subdirsAt p i = .ok t := Memory.subdirsAt_ok hp hsub hc.live (by rw [hc.size]; exact hi)
  have hkt : s.memory.cell (.subdirs p) = some (.tab t) := Memory.cell_subdirs_eq_some.mpr ht
  cases hslot : s.memory.slot t i with
  | none =>
    have hm : m.slot t i = none := by rw [hc.slots i (le_refl i), hslot]
    refine ⟨m.clearSlot t i, ?_, ⟨?_, hc.live, hc.size, ?_, ?_⟩, nofun, fun o ho _ =>
      Memory.sameAt_clearSlot ho⟩
    · rw [cleanSlots, hat]
      simp only [Res.ok_bind, hm, hclean.1, hat, Option.map_none, Memory.release]
    · exact (Memory.sameAt_clearSlot (by simp)).trans hc.dir
    · intro j hj
      have hne : j ≠ i := by omega
      simpa [hne] using hc.slots j (by omega)
    · intro j c o hj hjc ho
      refine (Memory.sameAt_clearSlot ?_).trans (hc.rest j c o (by omega) hjc ho)
      rintro rfl
      exact Publish.not_below_of_cell hrank (Memory.cell_slot_eq_some.mpr hjc) ho
  | some c =>
    have hkc : s.memory.cell (.slot t i) = some (.dir c) := Memory.cell_slot_eq_some.mpr hslot
    obtain ⟨m₁, hrun, hcleaned⟩ := hclean.2 i c m hslot fun o ho => hc.rest i c o (le_refl i) hslot ho
    -- the directory and its array do not hang below the slot
    have htab : ¬ s.Below (.dir c) (.tab t) := Publish.not_below_of_cell hrank hkc
    have hdir : ¬ s.Below (.dir c) (.dir p) := by
      intro hb
      refine htab (.child ?_ hkt)
      exact hb
    have htab₁ := hcleaned.frame _ htab
    have hdir₁ := hcleaned.frame _ hdir
    have hne : (.dir p : Object Dir Tab) ≠ .dir c := by
      intro heq
      exact hdir (heq ▸ .root)
    have hlive₁ : m₁.status (.tab t) = .live := htab₁.1.trans hc.live
    have hat₁ : m₁.subdirsAt p i = .ok t := Memory.subdirsAt_ok (hdir₁.1.trans hp)
      (hdir₁.2.2.trans hsub) hlive₁ (by rw [htab₁.2.2, hc.size]; exact hi)
    have hslots₁ : ∀ j, i ≤ j → m₁.slot t j = s.memory.slot t j := by
      intro j hj
      rw [htab₁.2.1]
      exact hc.slots j hj
    have hat₂ : (m₁.free (.dir c)).subdirsAt p i = .ok t := by
      refine Memory.subdirsAt_ok ?_ (hdir₁.2.2.trans hsub) ?_ (by
        show i < m₁.size t
        rw [htab₁.2.2, hc.size]
        exact hi)
      · rw [(Memory.sameAt_free hne).status, hdir₁.1, hp]
      · rw [(Memory.sameAt_free (by simp)).status, hlive₁]
    refine ⟨(m₁.free (.dir c)).clearSlot t i, ?_, ⟨?_, ?_, htab₁.2.2.trans hc.size, ?_, ?_⟩, ?_, ?_⟩
    · have hrelease : m₁.release (some (.dir c)) = .ok (m₁.free (.dir c)) :=
        Memory.release_live hcleaned.live
      rw [cleanSlots, hat]
      simp only [Res.ok_bind, hc.slots i (le_refl i), hslot, hrun, hat₁, hslots₁ i (le_refl i),
        Option.map_some, hrelease, hat₂]
    · exact (Memory.sameAt_clearSlot (by simp)).trans
        ((Memory.sameAt_free hne).trans (hdir₁.trans hc.dir))
    · show (m₁.free (.dir c)).status (.tab t) = .live
      rw [(Memory.sameAt_free (by simp)).status, hlive₁]
    · intro j hj
      have hji : j ≠ i := by omega
      simpa [hji] using hslots₁ j (by omega)
    · intro j c' o hj hjc ho
      have hkc' : s.memory.cell (.slot t j) = some (.dir c') := Memory.cell_slot_eq_some.mpr hjc
      have hji : (Cell.slot t j : Cell Dir Tab) ≠ .slot t i := by
        intro heq
        cases heq
        omega
      have hhome : Cell.home (.slot t j : Cell Dir Tab) = Cell.home (.slot t i) := rfl
      have hout : ¬ s.Below (.dir c) o :=
        h.published.siblings_disjoint hrank hhome hji hkc' hkc ho
      refine (Memory.sameAt_clearSlot ?_).trans ((Memory.sameAt_free ?_).trans
        ((hcleaned.frame o hout).trans (hc.rest j c' o (by omega) hjc ho)))
      · rintro rfl
        exact Publish.not_below_of_cell hrank hkc' ho
      · rintro rfl
        exact hout .root
    · intro c' o hc' ho
      cases hc'
      show (m₁.free (.dir c)).status o = .freed
      by_cases heq : o = .dir c
      · simp [heq]
      · rw [(Memory.sameAt_free heq).status]
        exact hcleaned.freed o ho heq
    · intro o ho hout
      have hout' := hout c rfl
      refine (Memory.sameAt_clearSlot ho).trans ((Memory.sameAt_free ?_).trans
        (hcleaned.frame o hout'))
      rintro rfl
      exact hout' .root

/-- The whole loop. -/
theorem cleanSlots_run (hclean : s.CleansSlots t clean) (ht : s.memory.subdirs p = some t) (n : ℕ)
    (hc : s.Cleaning p t i m) (hn : i + n ≤ s.memory.size t) :
    ∃ m', cleanSlots clean p n i m = .ok m' ∧ s.Cleaning p t (i + n) m' ∧
      (∀ j c o, i ≤ j → j < i + n → s.memory.slot t j = some c → s.Below (.dir c) o →
        m'.status o = .freed) ∧
      ∀ o, o ≠ .tab t → (∀ j c, i ≤ j → s.memory.slot t j = some c → ¬ s.Below (.dir c) o) →
        m'.SameAt m o := by
  induction n generalizing i m with
  | zero => exact ⟨m, rfl, hc, fun j c o hj hj' => by omega, fun o _ _ => .refl m o⟩
  | succ n ih =>
    obtain ⟨m₁, hturn, hc₁, hfreed₁, hframe₁⟩ :=
      cleanSlots_turn h hrank hclean ht hc (by omega) n
    obtain ⟨m', hrun, hc', hfreed, hframe⟩ := ih hc₁ (by omega)
    refine ⟨m', hturn.trans hrun, by rwa [show i + 1 + n = i + (n + 1) by omega] at hc', ?_, ?_⟩
    · intro j c o hj hjn hjc ho
      by_cases hji : j = i
      · subst hji
        -- what has been freed hangs below no later slot
        have hkc : s.memory.cell (.slot t j) = some (.dir c) := Memory.cell_slot_eq_some.mpr hjc
        have hlater : m'.SameAt m₁ o := by
          refine hframe o ?_ fun j' c' hj' hjc' ho' => ?_
          · rintro rfl
            exact Publish.not_below_of_cell hrank hkc ho
          · have hhome : Cell.home (.slot t j : Cell Dir Tab) = Cell.home (.slot t j') := rfl
            refine h.published.siblings_disjoint hrank hhome ?_ hkc
              (Memory.cell_slot_eq_some.mpr hjc') ho ho'
            intro heq
            cases heq
            omega
        rw [hlater.status]
        exact hfreed₁ c o hjc ho
      · exact hfreed j c o (by omega) (by omega) hjc ho
    · intro o ho hout
      exact (hframe o ho fun j c hj hjc => hout j c (by omega) hjc).trans
        (hframe₁ o ho fun c hc => hout i c (le_refl i) hc)

/-- With enough fuel `_clean_tree` frees all that hangs below the directory, each object once. -/
theorem cleanTree_spec {fuel : ℕ} (hfuel : rank (.dir p) < fuel)
    (htree : s.memory.InTree root (.dir p)) (hm : ∀ o, s.Below (.dir p) o → m.SameAt s.memory o) :
    ∃ m', cleanTree fuel m (some p) = .ok m' ∧ s.Cleaned p m m' := by
  induction fuel generalizing p m with
  | zero => omega
  | succ fuel ih =>
    have hp := hm (.dir p) .root
    have hlive : m.status (.dir p) = .live := by
      rw [hp.status]
      exact h.published.published_live htree
    cases ht : s.memory.subdirs p with
    | none =>
      refine ⟨m.setEntries p [], ?_, hlive, fun o ho hne => ?_, fun o ho => ?_⟩
      · rw [cleanTree, if_neg (not_not_intro hlive), hp.2.2, ht]
        rfl
      · obtain heq | ⟨k, c, hk, hkc, -⟩ := ho.through_cell
        · exact absurd heq hne
        · cases k with
          | slot t j => cases hk
          | subdirs p' =>
            cases hk
            rw [Memory.cell_subdirs_eq_none.mpr ht] at hkc
            cases hkc
      · refine Memory.sameAt_setEntries ?_
        rintro rfl
        exact ho .root
    | some t =>
      have hkt : s.memory.cell (.subdirs p) = some (.tab t) := Memory.cell_subdirs_eq_some.mpr ht
      have hptab := below_tab ht
      have hbelow : ∀ j c o, s.memory.slot t j = some c → s.Below (.dir c) o →
          s.Below (.dir p) o :=
        fun j c o hjc ho => (hptab.trans (below_slot hjc)).trans ho
      have hclean : s.CleansSlots t (cleanTree fuel) := by
        refine ⟨fun m => by cases fuel <;> rfl, fun i c m hc hm => ih ?_ (h.slot_inTree hc) hm⟩
        have h₁ := hrank _ _ hkt
        have h₂ := hrank _ _ (Memory.cell_slot_eq_some.mpr hc)
        simp only [Cell.home] at h₁ h₂
        omega
      have htab := hm (.tab t) hptab
      have hstart : s.Cleaning p t 0 m := by
        refine ⟨hp, ?_, htab.2.2, fun j _ => by rw [htab.2.1], fun j c o _ hjc ho =>
          hm o (hbelow j c o hjc ho)⟩
        rw [htab.status]
        exact h.tab_live ht
      have hsize : s.memory.size t = (m.entries p).length := by
        rw [hp.2.1]
        exact h.size p t ht
      obtain ⟨m₁, hrun, hc₁, hfreed, hframe⟩ := cleanSlots_run h hrank hclean ht
        (m.entries p).length hstart (by omega)
      have hrelease : m₁.release (some (.tab t)) = .ok (m₁.free (.tab t)) :=
        Memory.release_live hc₁.live
      have hsame : ∀ o, o ≠ .dir p → o ≠ .tab t →
          (((m₁.free (.tab t)).clearSubdirs p).setEntries p []).SameAt m₁ o := fun o hne hne' =>
        (Memory.sameAt_setEntries hne).trans
          ((Memory.sameAt_clearSubdirs hne).trans (Memory.sameAt_free hne'))
      refine ⟨((m₁.free (.tab t)).clearSubdirs p).setEntries p [], ?_, ?_, fun o ho hne => ?_,
        fun o ho => ?_⟩
      · rw [cleanTree, if_neg (not_not_intro hlive), hp.2.2, ht]
        simp only [hrun, Res.ok_bind, hc₁.dir.2.2, ht, Option.map_some, hrelease, Res.pure_def]
      · show (m₁.free (.tab t)).status (.dir p) = .live
        rw [(Memory.sameAt_free (by simp)).status, hc₁.dir.status]
        exact h.published.published_live htree
      · by_cases heq : o = .tab t
        · subst heq
          simp
        · rw [(hsame o hne heq).status]
          obtain heq' | ⟨k, c, hk, hkc, hco⟩ := ho.through_cell
          · exact absurd heq' hne
          · cases k with
            | slot t j => cases hk
            | subdirs p' =>
              cases hk
              obtain rfl : c = .tab t := Option.some.inj (hkc.symm.trans hkt)
              obtain heq' | ⟨k, c', hk, hkc', hco'⟩ := hco.through_cell
              · exact absurd heq' heq
              · cases k with
                | subdirs p' => cases hk
                | slot t' j =>
                  cases hk
                  obtain ⟨x, hx, rfl⟩ := Option.map_eq_some_iff.mp hkc'
                  have hlt := h.slot_lt hx
                  exact hfreed j x o (Nat.zero_le j) (by omega) hx hco'
      · have hne : o ≠ .dir p := by
          rintro rfl
          exact ho .root
        have hne' : o ≠ .tab t := by
          rintro rfl
          exact ho hptab
        exact (hsame o hne hne').trans (hframe o hne' fun j c _ hjc hco => ho (hbelow j c o hjc hco))

end Good

variable [DecidableEq Caller]

/-- Finitely many objects have been allocated. -/
theorem Opened.run_finite {s₀ : SharedCache Dir Tab Caller} {es : List (CacheEvent Dir Caller)}
    (hopened : s₀.Opened root) (hrun : Run (Step I part root) s₀ es s) :
    {o | s.memory.status o ≠ .unused}.Finite := by
  have hstart : {o | s₀.memory.status o ≠ .unused}.Finite := by
    refine (Set.finite_singleton (Object.dir root)).subset fun o ho => ?_
    by_contra hne
    exact ho (hopened.unused o hne)
  have hinv : Good I part root s ∧ {o | s.memory.status o ≠ .unused}.Finite := by
    refine hrun.invariant (P := fun s => Good I part root s ∧
      {o | s.memory.status o ≠ .unused}.Finite) (fun s e s' h hs => ⟨h.1.step hs, ?_⟩)
      ⟨hopened.good, hstart⟩
    obtain hsame | hstep := h.1.step_view hs
    · have hstatus : s'.memory.status = s.memory.status := congrArg Publish.State.status hsame
      rw [hstatus]
      exact h.2
    · exact hstep.finite h.2
  exact hinv.2

/-- Closing the handle when no call is running frees what has been allocated, each object once. -/
theorem udfreadClose_frees {s₀ : SharedCache Dir Tab Caller} {es : List (CacheEvent Dir Caller)}
    (hopened : s₀.Opened root) (hrun : Run (Step I part root) s₀ es s)
    (hidle : ∀ p, s.callers p = none) :
    ∃ n, ∀ fuel, n ≤ fuel → ∃ m', udfreadClose fuel s.memory root = .ok m' ∧
      ∀ o, s.memory.status o ≠ .unused → m'.status o = .freed := by
  have hgood : Good I part root s := hopened.good.run hrun
  obtain ⟨rank, hrank⟩ := hgood.published.exists_rank (hopened.run_finite hrun)
  refine ⟨rank (.dir root) + 1, fun fuel hfuel => ?_⟩
  obtain ⟨m₁, hclean, hcleaned⟩ := hgood.cleanTree_spec hrank hfuel .root fun o _ => .refl _ o
  refine ⟨m₁.free (.dir root), ?_, fun o ho => ?_⟩
  · rw [udfreadClose, hclean]
    exact Memory.release_live hcleaned.live
  · by_cases heq : o = .dir root
    · simp [heq]
    · rw [(Memory.sameAt_free heq).status]
      -- an object is in the tree, or has been freed before
      have hhands : ∀ p, s.view.hand p = none := fun p => by simp [view, hidle p]
      have hsettled : s.Below (.dir root) o ∨ s.memory.status o = .freed :=
        hgood.published.settled hhands ho
      obtain htree | hfreed := hsettled
      · exact hcleaned.freed o htree heq
      · have hout : ¬ s.Below (.dir root) o := by
          intro htree
          have hlive : s.memory.status o = .live := hgood.published.published_live htree
          rw [hfreed] at hlive
          cases hlive
        rw [(hcleaned.frame o hout).status, hfreed]

end SharedCache

end

/-- One directory has been looked up in the root directory. -/
theorem udfreadClose_frees_one : ∃ s : SharedCache ℕ ℕ ℕ,
    s.memory.status (.dir 1) = .live ∧
    ∃ n, ∀ fuel, n ≤ fuel → ∃ m', udfreadClose fuel s.memory 0 = .ok m' ∧
      ∀ o, s.memory.status o ≠ .unused → m'.status o = .freed := by
  let lookup : Call ℕ := ⟨0, 0⟩
  have hrun : ∃ s, Run (SharedCache.Step (.ofImage selfImage none) selfPartitions 0) selfCache
      (.call 0 lookup :: List.replicate 12 (.step 0) ++ [.ret 0 lookup (some 1)]) s ∧
      s.memory.status (.dir 1) = .live ∧ ∀ p, s.callers p = none := by
    refine ⟨?last, ?run, ?live, ?idle⟩
    case run =>
      refine .cons (.call rfl .root (by decide)) ?_
      refine .cons (.step rfl (.isDir rfl (by decide))) ?_
      refine .cons (.step rfl (.noSubdirs rfl)) ?_
      refine .cons (.step rfl (.callocSubdirs (t := 0) rfl)) ?_
      refine .cons (.step rfl (.casSubdirs rfl)) ?_
      refine .cons (.step rfl (.ifSlot rfl)) ?_
      refine .cons (.step rfl (.noSlot rfl)) ?_
      refine .cons (.step rfl (.callocSubdir (d := 1) rfl)) ?_
      refine .cons (.step rfl (.readDir rfl selfImage_read (by decide))) ?_
      refine .cons (.step rfl (.slotAddr rfl)) ?_
      refine .cons (.step rfl (.casSlot rfl)) ?_
      refine .cons (.step rfl (.loadSlot rfl)) ?_
      refine .cons (.step rfl .loadSlotOf) ?_
      refine .cons (.ret rfl) ?_
      exact .nil _
    case live => rfl
    case idle =>
      intro p
      by_cases hp : p = 0
      · subst hp
        rfl
      · simp [Function.update_of_ne hp, selfCache]
  obtain ⟨s, hrun, hlive, hidle⟩ := hrun
  exact ⟨s, hlive, SharedCache.udfreadClose_frees selfCache_opened hrun hidle⟩

end UdfRead
