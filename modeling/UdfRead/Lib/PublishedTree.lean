import UdfRead.Lib.Publish

/-!
# UdfRead.Lib.PublishedTree

The published objects as a tree. Every object but the root is held by one cell, so it has a depth,
and what hangs below one cell has nothing in common with what hangs below another cell of the same
object. With finitely many objects in use there is a rank that gets smaller with every step down:
a recursion over the tree may use it as its measure (`Inv.exists_rank`).
-/

namespace CModel.Publish

variable {Obj Cell Owner : Type} {root : Obj} {home : Cell → Obj} {cell : Cell → Option Obj}

theorem Published.trans {o o' o'' : Obj} (h : Published o home cell o')
    (h' : Published o' home cell o'') : Published o home cell o'' := by
  induction h' with
  | root => exact h
  | child _ hk ih => exact .child ih hk

/-- The object in a cell hangs below the object of the cell. -/
theorem Published.of_cell {k : Cell} {o : Obj} (hk : cell k = some o) :
    Published (home k) home cell o := .child .root hk

/-- `o` is `n` cells below the root. -/
inductive Depth (root : Obj) (home : Cell → Obj) (cell : Cell → Option Obj) : Obj → ℕ → Prop where
  | root : Depth root home cell root 0
  | child {k : Cell} {o : Obj} {n : ℕ} :
      Depth root home cell (home k) n → cell k = some o → Depth root home cell o (n + 1)

theorem Published.exists_depth {o : Obj} (h : Published root home cell o) :
    ∃ n, Depth root home cell o n := by
  induction h with
  | root => exact ⟨0, .root⟩
  | child _ hk ih =>
    obtain ⟨n, hn⟩ := ih
    exact ⟨n + 1, .child hn hk⟩

variable {s s' : State Obj Cell Owner}

namespace Inv

variable (h : Inv root home s)
include h

theorem depth_unique {o : Obj} {n m : ℕ} (hn : Depth root home s.cell o n)
    (hm : Depth root home s.cell o m) : n = m := by
  induction hn generalizing m with
  | root =>
    cases hm with
    | root => rfl
    | child _ hk => exact absurd hk (h.cell_root _)
  | @child k o n _ hk ih =>
    cases hm with
    | root => exact absurd hk (h.cell_root _)
    | @child k' _ m hm hk' =>
      obtain rfl := h.cell_inj k k' o hk hk'
      rw [ih hm]

/-- Each step down is one level deeper. -/
theorem exists_depth_function : ∃ depth : Obj → ℕ,
    ∀ k o, s.cell k = some o → depth o = depth (home k) + 1 := by
  classical
  refine ⟨fun o => if ho : ∃ n, Depth root home s.cell o n then ho.choose else 0, ?_⟩
  intro k o hk
  have hhome : ∃ n, Depth root home s.cell (home k) n := (h.cell_home k o hk).exists_depth
  have ho : ∃ n, Depth root home s.cell o n := ⟨_, .child hhome.choose_spec hk⟩
  simp only [hhome, ho, dif_pos]
  exact h.depth_unique ho.choose_spec (.child hhome.choose_spec hk)

/-- The measure of a recursion down the tree. -/
theorem exists_rank (hfinite : {o | s.status o ≠ .unused}.Finite) : ∃ rank : Obj → ℕ,
    ∀ k o, s.cell k = some o → rank o < rank (home k) := by
  obtain ⟨depth, hdepth⟩ := h.exists_depth_function
  obtain ⟨bound, hbound⟩ := (hfinite.image depth).bddAbove
  refine ⟨fun o => bound - depth o, fun k o hk => ?_⟩
  have hle : depth o ≤ bound := by
    refine hbound ⟨o, ?_, rfl⟩
    simp [h.cell_live k o hk]
  have hnext := hdepth k o hk
  show bound - depth o < bound - depth (home k)
  omega

/-- Two objects with a common object below them are on one path. -/
theorem below_comparable {a b o : Obj} (ha : Published a home s.cell o)
    (hb : Published b home s.cell o) : Published a home s.cell b ∨ Published b home s.cell a := by
  induction ha with
  | root => exact .inr hb
  | @child k o _ hk ih =>
    cases hb with
    | root => exact .inl (.child ‹_› hk)
    | @child k' _ hb hk' =>
      obtain rfl := h.cell_inj k k' o hk hk'
      exact ih hb

end Inv

/-- With a rank, what hangs below an object has no larger one. -/
theorem Published.rank_le {rank : Obj → ℕ} (hrank : ∀ k o, cell k = some o → rank o < rank (home k))
    {o o' : Obj} (h : Published o home cell o') : rank o' ≤ rank o := by
  induction h with
  | root => exact le_refl _
  | child _ hk ih =>
    have := hrank _ _ hk
    omega

/-- Nothing hangs below itself. -/
theorem not_below_of_cell {rank : Obj → ℕ}
    (hrank : ∀ k o, cell k = some o → rank o < rank (home k)) {k : Cell} {o : Obj}
    (hk : cell k = some o) : ¬ Published o home cell (home k) := by
  intro hbelow
  have hle := hbelow.rank_le hrank
  have := hrank k o hk
  omega

/-- What hangs below two cells of one object is disjoint. -/
theorem Inv.siblings_disjoint (h : Inv root home s) {rank : Obj → ℕ}
    (hrank : ∀ k o, s.cell k = some o → rank o < rank (home k)) {k k' : Cell} {a b o : Obj}
    (hhome : home k = home k') (hne : k ≠ k') (ha : s.cell k = some a) (hb : s.cell k' = some b)
    (hoa : Published a home s.cell o) : ¬ Published b home s.cell o := by
  intro hob
  -- one of the two would hang below the other, through the cell that holds it
  have hcase : ∀ {j j' : Cell} {x y : Obj}, home j = home j' → j ≠ j' → s.cell j = some x →
      s.cell j' = some y → ¬ Published x home s.cell y := by
    intro j j' x y hhome hne hx hy hxy
    cases hxy with
    | root => exact hne (h.cell_inj j j' x hx hy)
    | @child i _ hxi hi =>
      obtain rfl := h.cell_inj i j' y hi hy
      rw [← hhome] at hxi
      exact not_below_of_cell hrank hx hxi
  obtain hab | hba := h.below_comparable hoa hob
  · exact hcase hhome hne ha hb hab
  · exact hcase hhome.symm (Ne.symm hne) hb ha hba

/-- An object below `o`, other than `o`, hangs below one of the cells of `o`. -/
theorem Published.through_cell {o o' : Obj} (h : Published o home cell o') :
    o' = o ∨ ∃ k c, home k = o ∧ cell k = some c ∧ Published c home cell o' := by
  induction h with
  | root => exact .inl rfl
  | @child k o' _ hk ih =>
    obtain rfl | ⟨j, c, hj, hc, hbelow⟩ := ih
    · exact .inr ⟨k, o', rfl, hk, .root⟩
    · exact .inr ⟨j, c, hj, hc, .child hbelow hk⟩

/-- A step takes one object at most. -/
theorem Step.finite [DecidableEq Obj] [DecidableEq Cell] [DecidableEq Owner]
    (hs : Step root home s s') (hfinite : {o | s.status o ≠ .unused}.Finite) :
    {o | s'.status o ≠ .unused}.Finite := by
  have hmore : ∀ (o : Obj) (st : Status),
      {o' | Function.update s.status o st o' ≠ .unused}.Finite := by
    intro o st
    refine (hfinite.insert o).subset fun o' ho' => ?_
    by_cases heq : o' = o
    · exact .inl heq
    · exact .inr (by simpa [heq] using ho')
  cases hs with
  | take _ _ => exact hmore _ _
  | publish _ _ _ => exact hfinite
  | discard _ => exact hmore _ _

end CModel.Publish
