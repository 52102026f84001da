import UdfRead.Reopen

/-!
# UdfRead.Handles

The handles that the API can make: `udfread_init`, the selection of a partition, attempts to open a
volume, and lookups in an open one. A closed handle holds the root directory only, and an open one
selects a partition that a volume can have (`Udfread.Reached.handle`).
-/

namespace UdfRead

open CModel

section

variable {σ : Type}

/-- A handle that `udfread_init` has made, and the API has changed. -/
inductive Udfread.Reached : Udfread → Prop where
  | init (partitionToOpen : Int) : Reached (.init partitionToOpen)
  | select {udf : Udfread} (partition : Int) :
      Reached udf → Reached (udfreadSelectPartition udf partition).2
  | openInput {σ : Type} {I : BlockInput σ} {fuel : Nat} {udf udf' : Udfread} {r : Int} {s s' : σ} :
      Reached udf → udfreadOpenInput I fuel udf s = .ok ((r, udf'), s') → Reached udf'
  | lookups {σ : Type} {I : BlockInput σ} {udf : Udfread} {env : σ} {es : List Lookup}
      {st : LookupState σ} : Reached udf → udf.isOpen = true →
      Run (LookupStep I) { udf, env, handles := [] } es st → Reached st.udf

/-- What the calls do not change. -/
structure Keeps (udf udf' : Udfread) : Prop where
  isOpen : udf'.isOpen = udf.isOpen
  partitionToOpen : udf'.partitionToOpen = udf.partitionToOpen

variable {I : BlockInput σ} {fuel : Nat} {udf udf' : Udfread} {s s' : σ}

theorem Keeps.refl (udf : Udfread) : Keeps udf udf := ⟨rfl, rfl⟩

theorem Keeps.trans {udf'' : Udfread} (h : Keeps udf udf') (h' : Keeps udf' udf'') :
    Keeps udf udf'' :=
  ⟨h'.isOpen.trans h.isOpen, h'.partitionToOpen.trans h.partitionToOpen⟩

theorem cacheSubdir_keeps {dir index : Nat} {r : Option Nat}
    (hrun : cacheSubdir I fuel udf dir index s = .ok ((r, udf'), s')) : Keeps udf udf' := by
  obtain ⟨d, fid, hd, hfid, hcall⟩ := cacheSubdir_cases hrun
  cases hcall with
  | notDir => exact .refl udf
  | cached | failed | read => exact ⟨rfl, rfl⟩

theorem findFileLoop_keeps {toks : List Bytes} {dir : Nat} {fid : Option UdfFileIdentifier}
    {r : Option (Option Nat × Option UdfFileIdentifier)}
    (hrun : findFileLoop I fuel toks udf dir fid s = .ok ((r, udf'), s')) : Keeps udf udf' := by
  induction toks generalizing udf dir fid s with
  | nil =>
    cases hrun
    exact .refl _
  | cons token rest ih =>
    obtain ⟨d, hd, hturn⟩ := findFileLoop_cases hrun
    cases hturn with
    | missing | file | fileInside => exact .refl _
    | failed hscan hfid hdir hcache => exact cacheSubdir_keeps hcache
    | down hscan hfid hdir hcache hrun => exact (cacheSubdir_keeps hcache).trans (ih hrun)

theorem udfreadOpendir_keeps {path : Bytes} {r : Option UdfDirHandle}
    (hrun : udfreadOpendir I fuel udf path s = .ok ((r, udf'), s')) : Keeps udf udf' := by
  obtain ⟨rfl, rfl⟩ | ⟨found, hfind, -⟩ := udfreadOpendir_cases hrun
  · exact .refl _
  · exact findFileLoop_keeps hfind

theorem udfreadOpendirAt_keeps {p : UdfDirHandle} {name : Bytes} {r : Option UdfDirHandle}
    (hrun : udfreadOpendirAt I fuel udf p name s = .ok ((r, udf'), s')) : Keeps udf udf' := by
  obtain ⟨rfl, rfl⟩ | ⟨d, index, sub, -, -, hcache, -⟩ := udfreadOpendirAt_cases hrun
  · exact .refl _
  · exact cacheSubdir_keeps hcache

theorem udfreadFileOpen_keeps {path : Bytes} {r : Option (UdfFileIdentifier × UdfFile)}
    (hrun : udfreadFileOpen I fuel udf path s = .ok ((r, udf'), s')) : Keeps udf udf' := by
  obtain ⟨rfl, rfl⟩ | ⟨found, s₁, hfind, -⟩ := udfreadFileOpen_cases hrun
  · exact .refl _
  · exact findFileLoop_keeps hfind

theorem lookupStep_keeps {st st' : LookupState σ} {e : Lookup} (h : LookupStep I st e st') :
    Keeps st.udf st'.udf := by
  cases h with
  | opendir hrun => exact udfreadOpendir_keeps hrun
  | opendirAt _ hrun => exact udfreadOpendirAt_keeps hrun
  | fileOpen hrun => exact udfreadFileOpen_keeps hrun
  | fileOpenat _ hrun =>
    rw [(udfreadFileOpenat_cases hrun).1]
    exact .refl _

theorem lookups_keep {st st' : LookupState σ} {es : List Lookup}
    (hrun : Run (LookupStep I) st es st') : Keeps st.udf st'.udf := by
  induction hrun with
  | nil st => exact .refl _
  | cons hstep _ ih => exact (lookupStep_keeps hstep).trans ih

theorem setRootEntries_keeps (udf : Udfread) (entries : List UdfFileIdentifier) :
    Keeps udf (udf.setRootEntries entries) := by
  unfold Udfread.setRootEntries
  cases udf.dirs with
  | nil => exact ⟨rfl, rfl⟩
  | cons root rest => exact ⟨rfl, rfl⟩

theorem openRoot_keeps {fsdLocation : LongAd} {r : Int}
    (hrun : openRoot I fuel udf fsdLocation s = .ok ((r, udf'), s')) :
    udf'.partitionToOpen = udf.partitionToOpen ∧ (udf'.isOpen = udf.isOpen ∨ r = 0) := by
  obtain ⟨found, s₁, _, hrun⟩ := Proc.bind_eq_ok.mp hrun
  cases found with
  | none =>
    cases hrun
    exact ⟨rfl, .inl rfl⟩
  | some rootIcb =>
    obtain ⟨⟨result, entries⟩, s₂, _, hrun⟩ := Proc.bind_eq_ok.mp hrun
    have hkeeps := setRootEntries_keeps udf entries
    simp only at hrun
    split at hrun
    · cases hrun
      exact ⟨hkeeps.partitionToOpen, .inl hkeeps.isOpen⟩
    · cases hrun
      exact ⟨hkeeps.partitionToOpen, .inr rfl⟩

/-- What opening leaves in a handle that was closed. -/
theorem udfreadOpenInput_leaves {r : Int} (hclosed : udf.isOpen = false)
    (hrun : udfreadOpenInput I fuel udf s = .ok ((r, udf'), s')) :
    udf'.partitionToOpen = udf.partitionToOpen ∧
      (udf'.isOpen = true → udf.partitionToOpen < 65536) ∧ (r = -1 → udf'.isOpen = false) := by
  have hfailed : ∀ {udf₁ : Udfread}, udf₁.isOpen = false →
      udf₁.partitionToOpen = udf.partitionToOpen →
      udf₁.partitionToOpen = udf.partitionToOpen ∧
        (udf₁.isOpen = true → udf.partitionToOpen < 65536) ∧ (r = -1 → udf₁.isOpen = false) := by
    intro udf₁ h hselect
    refine ⟨hselect, fun hopen => ?_, fun _ => h⟩
    rw [h] at hopen
    cases hopen
  unfold udfreadOpenInput at hrun
  rw [hclosed] at hrun
  obtain ⟨probed, s₁, _, hrun⟩ := Proc.bind_eq_ok.mp hrun
  cases probed with
  | false =>
    cases hrun
    exact hfailed hclosed rfl
  | true =>
    obtain ⟨read, s₂, hread, hrun⟩ := Proc.bind_eq_ok.mp hrun
    cases read with
    | none =>
      cases hrun
      exact hfailed hclosed rfl
    | some vds =>
      have hselect : udf.partitionToOpen < 65536 := by
        by_contra hge
        cases udfReadVds_unselected (by omega) hread
      obtain ⟨valid, s₃, _, hrun⟩ := Proc.bind_eq_ok.mp hrun
      cases valid with
      | none =>
        cases hrun
        exact hfailed hclosed rfl
      | some fsdLocation =>
        obtain ⟨volumeIdentifier, s₄, _, hrun⟩ := Proc.bind_eq_ok.mp hrun
        obtain ⟨⟨ok, part⟩, s₅, _, hrun⟩ := Proc.bind_eq_ok.mp hrun
        cases ok with
        | false =>
          cases hrun
          exact hfailed rfl rfl
        | true =>
          obtain ⟨hselected, hopen⟩ := openRoot_keeps hrun
          refine ⟨hselected, fun _ => hselect, fun hr => ?_⟩
          rcases hopen with hopen | rfl
          · exact hopen
          · cases hr

/-- A handle is closed and holds the root directory only, or it has opened a volume with a partition
that it selects. -/
theorem Udfread.Reached.handle (h : udf.Reached) :
    (udf.isOpen = false → udf.Closed) ∧ (udf.isOpen = true → udf.partitionToOpen < 65536) := by
  induction h with
  | init partitionToOpen =>
    refine ⟨fun _ => closed_init partitionToOpen, fun h => ?_⟩
    cases h
  | @select udf partition _ ih =>
    unfold udfreadSelectPartition
    split
    · exact ih
    · rename_i hclosed
      split
      · exact ih
      · refine ⟨fun h => ⟨h, (ih.1 h).2⟩, fun h => ?_⟩
        exact absurd h hclosed
  | @openInput σ I fuel udf udf' r s s' _ hrun ih =>
    cases hopen : udf.isOpen with
    | true =>
      unfold udfreadOpenInput at hrun
      rw [hopen] at hrun
      cases hrun
      exact ih
    | false =>
      obtain ⟨hselect, hopened, -⟩ := udfreadOpenInput_leaves hopen hrun
      rw [← hselect] at hopened
      exact ⟨fun h => ⟨h, udfreadOpenInput_dirs (ih.1 hopen) hrun⟩, hopened⟩
  | @lookups σ I udf env es st _ hopen hrun ih =>
    have hkeeps := lookups_keep hrun
    refine ⟨fun h => ?_, fun h => ?_⟩
    · have hopen' : st.udf.isOpen = udf.isOpen := hkeeps.isOpen
      rw [hopen, h] at hopen'
      cases hopen'
    · rw [hkeeps.partitionToOpen]
      exact ih.2 hopen

end

end UdfRead
