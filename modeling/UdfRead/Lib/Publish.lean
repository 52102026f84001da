import Mathlib

/-!
# UdfRead.Lib.Publish

Publication by compare-and-exchange with an empty cell. Any number of owners take fresh objects,
one at a time, and prepare them where nobody else looks. An owner then stores its object in an
empty cell of an object that is already published, or gives it back.

The published objects form a tree below `root`: `home` is the object that a cell belongs to.
-/

namespace CModel.Publish

inductive Status where
  | unused
  | live
  | freed
  deriving DecidableEq, Repr

structure State (Obj Cell Owner : Type) where
  status : Obj → Status
  cell : Cell → Option Obj
  hand : Owner → Option Obj

variable {Obj Cell Owner : Type} (root : Obj) (home : Cell → Obj)

/-- What hangs below the root. -/
inductive Published (cell : Cell → Option Obj) : Obj → Prop where
  | root : Published cell root
  | child {k : Cell} {o : Obj} : Published cell (home k) → cell k = some o → Published cell o

variable {root home}

theorem Published.root_or_held {cell : Cell → Option Obj} {o : Obj}
    (h : Published root home cell o) : o = root ∨ ∃ k, cell k = some o := by
  cases h with
  | root => exact .inl rfl
  | child _ hk => exact .inr ⟨_, hk⟩

theorem Published.mono {cell cell' : Cell → Option Obj} {o : Obj}
    (hcell : ∀ k o, cell k = some o → cell' k = some o)
    (h : Published root home cell o) : Published root home cell' o := by
  induction h with
  | root => exact .root
  | child _ hk ih => exact .child ih (hcell _ _ hk)

variable (root home)

/-- One step of one owner. -/
inductive Step [DecidableEq Obj] [DecidableEq Cell] [DecidableEq Owner] :
    State Obj Cell Owner → State Obj Cell Owner → Prop where
  | take {s : State Obj Cell Owner} {p : Owner} {o : Obj} :
      s.hand p = none → s.status o = .unused →
      Step s { s with
        status := Function.update s.status o .live, hand := Function.update s.hand p (some o) }
  | publish {s : State Obj Cell Owner} {p : Owner} {k : Cell} {o : Obj} :
      s.hand p = some o → Published root home s.cell (home k) → s.cell k = none →
      Step s { s with
        cell := Function.update s.cell k (some o), hand := Function.update s.hand p none }
  | discard {s : State Obj Cell Owner} {p : Owner} {o : Obj} :
      s.hand p = some o →
      Step s { s with
        status := Function.update s.status o .freed, hand := Function.update s.hand p none }

/-- Every live object is the root, in one hand, or in one cell of a published object. -/
structure Inv (s : State Obj Cell Owner) : Prop where
  root_live : s.status root = .live
  cell_live : ∀ k o, s.cell k = some o → s.status o = .live
  cell_root : ∀ k, s.cell k ≠ some root
  cell_home : ∀ k o, s.cell k = some o → Published root home s.cell (home k)
  cell_inj : ∀ k k' o, s.cell k = some o → s.cell k' = some o → k = k'
  hand_live : ∀ p o, s.hand p = some o → s.status o = .live
  hand_root : ∀ p, s.hand p ≠ some root
  hand_cell : ∀ p o, s.hand p = some o → ∀ k, s.cell k ≠ some o
  hand_inj : ∀ p q o, s.hand p = some o → s.hand q = some o → p = q
  covered : ∀ o, s.status o = .live →
    o = root ∨ (∃ p, s.hand p = some o) ∨ ∃ k, s.cell k = some o

variable {root home} {s s' : State Obj Cell Owner}

namespace Inv

/-- Nothing but the root has been allocated. -/
theorem initial (hroot : s.status root = .live) (honly : ∀ o, s.status o = .live → o = root)
    (hcell : ∀ k, s.cell k = none) (hhand : ∀ p, s.hand p = none) : Inv root home s where
  root_live := hroot
  cell_live := by simp [hcell]
  cell_root := by simp [hcell]
  cell_home := by simp [hcell]
  cell_inj := by simp [hcell]
  hand_live := by simp [hhand]
  hand_root := by simp [hhand]
  hand_cell := by simp [hhand]
  hand_inj := by simp [hhand]
  covered o ho := .inl (honly o ho)

variable (h : Inv root home s)
include h

theorem published_live {o : Obj} (ho : Published root home s.cell o) : s.status o = .live := by
  obtain rfl | ⟨k, hk⟩ := ho.root_or_held
  · exact h.root_live
  · exact h.cell_live k o hk

/-- What an owner has in hand is not published. -/
theorem hidden {p : Owner} {o : Obj} (hp : s.hand p = some o) :
    ¬ Published root home s.cell o := by
  intro ho
  obtain rfl | ⟨k, hk⟩ := ho.root_or_held
  · exact h.hand_root p hp
  · exact h.hand_cell p o hp k hk

/-- The cells of an object that is not published are empty. -/
theorem cell_none {k : Cell} (hk : ¬ Published root home s.cell (home k)) : s.cell k = none := by
  cases hc : s.cell k with
  | none => rfl
  | some o => exact absurd (h.cell_home k o hc) hk

theorem cell_none_of_unused {k : Cell} (hk : s.status (home k) = .unused) : s.cell k = none := by
  refine h.cell_none fun hp => ?_
  have hlive := h.published_live hp
  rw [hk] at hlive
  cases hlive

/-- With all hands empty nothing is lost. -/
theorem settled (hnone : ∀ p, s.hand p = none) {o : Obj} (ho : s.status o ≠ .unused) :
    Published root home s.cell o ∨ s.status o = .freed := by
  cases hs : s.status o with
  | unused => exact absurd hs ho
  | freed => exact .inr rfl
  | live =>
    refine .inl ?_
    obtain rfl | ⟨p, hp⟩ | ⟨k, hk⟩ := h.covered o hs
    · exact .root
    · rw [hnone p] at hp
      cases hp
    · exact .child (h.cell_home k o hk) hk

end Inv

/-- What is in hand once `p` has emptied its own. -/
theorem hand_emptied [DecidableEq Owner] {p q : Owner} {o : Obj}
    (hq : Function.update s.hand p none q = some o) : q ≠ p ∧ s.hand q = some o := by
  by_cases hqp : q = p
  · subst hqp
    simp at hq
  · rw [Function.update_of_ne hqp] at hq
    exact ⟨hqp, hq⟩

section

variable [DecidableEq Obj] [DecidableEq Cell] [DecidableEq Owner]

/-- A filled cell stays as it is. -/
theorem Step.cell_stays (hs : Step root home s s') {k : Cell} {o : Obj} (hk : s.cell k = some o) :
    s'.cell k = some o := by
  cases hs with
  | take _ _ => exact hk
  | @publish p k' o' _ _ hnone =>
    have hne : k ≠ k' := by
      rintro rfl
      rw [hnone] at hk
      cases hk
    simp [Function.update_of_ne hne, hk]
  | discard _ => exact hk

/-- What was freed stays freed. -/
theorem Step.freed_stays (h : Inv root home s) (hs : Step root home s s') {o : Obj}
    (ho : s.status o = .freed) : s'.status o = .freed := by
  cases hs with
  | @take p o' _ hunused =>
    have hne : o ≠ o' := by
      rintro rfl
      rw [ho] at hunused
      cases hunused
    simp [Function.update_of_ne hne, ho]
  | publish _ _ _ => exact ho
  | @discard p o' hp =>
    have hne : o ≠ o' := by
      rintro rfl
      rw [h.hand_live p o hp] at ho
      cases ho
    simp [Function.update_of_ne hne, ho]

omit [DecidableEq Cell] in
theorem Inv.take (h : Inv root home s) {p : Owner} {o : Obj} (hp : s.hand p = none)
    (ho : s.status o = .unused) :
    Inv root home { s with
      status := Function.update s.status o .live, hand := Function.update s.hand p (some o) } := by
  have hne : ∀ {o'}, s.status o' = .live → o' ≠ o := by
    rintro o' hlive rfl
    rw [ho] at hlive
    cases hlive
  have hlive : ∀ {o'}, s.status o' = .live → Function.update s.status o .live o' = .live := by
    intro o' h'
    rw [Function.update_of_ne (hne h'), h']
  have hand : ∀ {q o'}, Function.update s.hand p (some o) q = some o' →
      q = p ∧ o' = o ∨ q ≠ p ∧ s.hand q = some o' := by
    intro q o' hq
    by_cases hqp : q = p
    · subst hqp
      simp at hq
      exact .inl ⟨rfl, hq.symm⟩
    · rw [Function.update_of_ne hqp] at hq
      exact .inr ⟨hqp, hq⟩
  refine ⟨hlive h.root_live, fun k o' hk => hlive (h.cell_live k o' hk), h.cell_root, h.cell_home,
    h.cell_inj, ?_, ?_, ?_, ?_, ?_⟩
  · intro q o' hq
    obtain ⟨-, rfl⟩ | ⟨-, hq⟩ := hand hq
    · simp
    · exact hlive (h.hand_live q o' hq)
  · intro q hq
    obtain ⟨-, rfl⟩ | ⟨-, hq⟩ := hand hq
    · exact hne h.root_live rfl
    · exact h.hand_root q hq
  · intro q o' hq k hk
    obtain ⟨-, rfl⟩ | ⟨-, hq⟩ := hand hq
    · exact hne (h.cell_live k _ hk) rfl
    · exact h.hand_cell q o' hq k hk
  · intro q q' o' hq hq'
    obtain ⟨hqp, ho'⟩ | ⟨-, hold⟩ := hand hq <;> obtain ⟨hqp', ho''⟩ | ⟨-, hold'⟩ := hand hq'
    · rw [hqp, hqp']
    · exact absurd ho' (hne (h.hand_live _ _ hold'))
    · exact absurd ho'' (hne (h.hand_live _ _ hold))
    · exact h.hand_inj q q' o' hold hold'
  · intro o' hlive'
    by_cases ho' : o' = o
    · exact .inr (.inl ⟨p, by simp [ho']⟩)
    · obtain hr | ⟨q, hq⟩ | hk := h.covered o' (by simpa [ho'] using hlive')
      · exact .inl hr
      · have hqp : q ≠ p := by
          rintro rfl
          rw [hp] at hq
          cases hq
        exact .inr (.inl ⟨q, by simp [hqp, hq]⟩)
      · exact .inr (.inr hk)

theorem Inv.publish (h : Inv root home s) {p : Owner} {k : Cell} {o : Obj}
    (hp : s.hand p = some o) (hhome : Published root home s.cell (home k))
    (hk : s.cell k = none) :
    Inv root home { s with
      cell := Function.update s.cell k (some o), hand := Function.update s.hand p none } := by
  have hmono : ∀ k' o', s.cell k' = some o' → Function.update s.cell k (some o) k' = some o' :=
    fun k' o' hk' => (Step.publish hp hhome hk).cell_stays hk'
  have cell : ∀ {k' o'}, Function.update s.cell k (some o) k' = some o' →
      k' = k ∧ o' = o ∨ k' ≠ k ∧ s.cell k' = some o' := by
    intro k' o' hc
    by_cases hkk : k' = k
    · subst hkk
      simp at hc
      exact .inl ⟨rfl, hc.symm⟩
    · rw [Function.update_of_ne hkk] at hc
      exact .inr ⟨hkk, hc⟩
  refine ⟨h.root_live, ?_, ?_, ?_, ?_, ?_, ?_, ?_, ?_, ?_⟩
  · intro k' o' hc
    obtain ⟨-, rfl⟩ | ⟨-, hc⟩ := cell hc
    · exact h.hand_live p _ hp
    · exact h.cell_live k' o' hc
  · intro k' hc
    obtain ⟨-, rfl⟩ | ⟨-, hc⟩ := cell hc
    · exact h.hand_root p hp
    · exact h.cell_root k' hc
  · intro k' o' hc
    obtain ⟨rfl, -⟩ | ⟨-, hc⟩ := cell hc
    · exact hhome.mono hmono
    · exact (h.cell_home k' o' hc).mono hmono
  · intro k' k'' o' hc hc'
    obtain ⟨hkk, ho'⟩ | ⟨-, hold⟩ := cell hc <;> obtain ⟨hkk', ho''⟩ | ⟨-, hold'⟩ := cell hc'
    · rw [hkk, hkk']
    · exact absurd (ho' ▸ hold') (h.hand_cell p o hp k'')
    · exact absurd (ho'' ▸ hold) (h.hand_cell p o hp k')
    · exact h.cell_inj k' k'' o' hold hold'
  · intro q o' hq
    exact h.hand_live q o' (hand_emptied hq).2
  · intro q hq
    exact h.hand_root q (hand_emptied hq).2
  · intro q o' hq k' hc
    obtain ⟨hqp, hold⟩ := hand_emptied hq
    obtain ⟨-, ho'⟩ | ⟨-, hc⟩ := cell hc
    · exact hqp (h.hand_inj q p o (ho' ▸ hold) hp)
    · exact h.hand_cell q o' hold k' hc
  · intro q q' o' hq hq'
    exact h.hand_inj q q' o' (hand_emptied hq).2 (hand_emptied hq').2
  · intro o' hlive
    obtain hr | ⟨q, hq⟩ | ⟨k', hc⟩ := h.covered o' hlive
    · exact .inl hr
    · by_cases hqp : q = p
      · subst hqp
        obtain rfl : o = o' := by simpa [hp] using hq
        exact .inr (.inr ⟨k, by simp⟩)
      · exact .inr (.inl ⟨q, by simp [hqp, hq]⟩)
    · exact .inr (.inr ⟨k', hmono k' o' hc⟩)

omit [DecidableEq Cell] in
theorem Inv.discard (h : Inv root home s) {p : Owner} {o : Obj} (hp : s.hand p = some o) :
    Inv root home { s with
      status := Function.update s.status o .freed, hand := Function.update s.hand p none } := by
  have hlive : ∀ {o'}, o' ≠ o → s.status o' = .live →
      Function.update s.status o .freed o' = .live := by
    intro o' hne h'
    rw [Function.update_of_ne hne, h']
  refine ⟨hlive ?_ h.root_live, ?_, h.cell_root, h.cell_home, h.cell_inj, ?_, ?_, ?_, ?_, ?_⟩
  · rintro rfl
    exact h.hand_root p hp
  · intro k o' hk
    refine hlive ?_ (h.cell_live k o' hk)
    rintro rfl
    exact h.hand_cell p o' hp k hk
  · intro q o' hq
    obtain ⟨hqp, hold⟩ := hand_emptied hq
    refine hlive ?_ (h.hand_live q o' hold)
    rintro rfl
    exact hqp (h.hand_inj q p o' hold hp)
  · intro q hq
    exact h.hand_root q (hand_emptied hq).2
  · intro q o' hq
    exact h.hand_cell q o' (hand_emptied hq).2
  · intro q q' o' hq hq'
    exact h.hand_inj q q' o' (hand_emptied hq).2 (hand_emptied hq').2
  · intro o' hlive'
    have hne : o' ≠ o := by
      rintro rfl
      simp at hlive'
    obtain hr | ⟨q, hq⟩ | hk := h.covered o' (by simpa [hne] using hlive')
    · exact .inl hr
    · have hqp : q ≠ p := by
        rintro rfl
        rw [hp] at hq
        exact hne (Option.some.inj hq).symm
      exact .inr (.inl ⟨q, by simp [hqp, hq]⟩)
    · exact .inr (.inr hk)

theorem Inv.step (h : Inv root home s) (hs : Step root home s s') : Inv root home s' := by
  cases hs with
  | take hp ho => exact h.take hp ho
  | publish hp hhome hk => exact h.publish hp hhome hk
  | discard hp => exact h.discard hp

/-! ## Systems that take steps of publication, or none -/

variable (hs : s' = s ∨ Step root home s s')
include hs

theorem Inv.maybe (h : Inv root home s) : Inv root home s' := by
  obtain rfl | hs := hs
  · exact h
  · exact h.step hs

theorem maybe_cell {k : Cell} {o : Obj} (hk : s.cell k = some o) : s'.cell k = some o := by
  obtain rfl | hs := hs
  · exact hk
  · exact hs.cell_stays hk

theorem maybe_freed (h : Inv root home s) {o : Obj} (ho : s.status o = .freed) :
    s'.status o = .freed := by
  obtain rfl | hs := hs
  · exact ho
  · exact hs.freed_stays h ho

end

end CModel.Publish
