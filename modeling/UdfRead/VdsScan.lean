import UdfRead.MinimalVolume
import UdfRead.VdsTermination

/-!
# UdfRead.VdsScan

What the scan of the volume descriptor sequence makes of the descriptors it meets. The blocks that
are met are a property of the image and of the selection (`Meets`, `MeetsVds`); the result of the
scan is what taking them one after the other gives (`udfReadVds_meets`).
-/

namespace UdfRead

open CModel

/-- A block of the sequence, with its tag. -/
abbrev Descriptor := TagIdentifier × Bytes

/-! ## The blocks met -/

/-- The descriptors that the scan of the `n` blocks from `lba` on meets, with the kinds `m` found
before: it follows pointers, and stops at a terminator and when all kinds are found. -/
inductive Meets (image : Image) (partNumber : Int) :
    (n : Nat) → (lba : UInt32) → VdsMask → List Descriptor → Prop where
  | empty (lba : UInt32) (m : VdsMask) : Meets image partNumber 0 lba m []
  | pointer {n : Nat} {lba : UInt32} {m : VdsMask} {buf : Bytes} {loc : ExtentAd}
      {ds : List Descriptor} :
      imageTag image lba = (.volumeDescriptorPointer, buf) → decodeVdp buf = .ok loc →
      Meets image partNumber (extentBlocks loc) loc.lba m ds →
      Meets image partNumber (n + 1) lba m ds
  | terminator {n : Nat} {lba : UInt32} {m : VdsMask} {buf : Bytes} :
      imageTag image lba = (.terminatingDescriptor, buf) → Meets image partNumber (n + 1) lba m []
  | last {n : Nat} {lba : UInt32} {m : VdsMask} {tag : TagIdentifier} {buf : Bytes} :
      imageTag image lba = (tag, buf) → tag ≠ .volumeDescriptorPointer →
      tag ≠ .terminatingDescriptor → Found partNumber (m ⊔ blockKind partNumber tag buf) →
      Meets image partNumber (n + 1) lba m [(tag, buf)]
  | next {n : Nat} {lba : UInt32} {m : VdsMask} {tag : TagIdentifier} {buf : Bytes}
      {ds : List Descriptor} :
      imageTag image lba = (tag, buf) → tag ≠ .volumeDescriptorPointer →
      tag ≠ .terminatingDescriptor → ¬ Found partNumber (m ⊔ blockKind partNumber tag buf) →
      Meets image partNumber n (lba + 1) (m ⊔ blockKind partNumber tag buf) ds →
      Meets image partNumber (n + 1) lba m ((tag, buf) :: ds)

/-- The kinds of the descriptors. -/
def kindsOf (partNumber : Int) : List Descriptor → VdsMask
  | [] => VdsMask.none
  | (tag, buf) :: ds => blockKind partNumber tag buf ⊔ kindsOf partNumber ds

/-- The descriptors met in the main sequence, followed by those met in the reserve sequence where
the main one lacks a kind. -/
inductive MeetsVds (image : Image) (partNumber : Int) (avdp : AnchorVolumeDescriptor) :
    List Descriptor → Prop where
  | main {ds : List Descriptor} :
      Meets image partNumber (extentBlocks avdp.mvds) avdp.mvds.lba VdsMask.none ds →
      (kindsOf partNumber ds).haveAll = true → MeetsVds image partNumber avdp ds
  | both {ds ds' : List Descriptor} :
      Meets image partNumber (extentBlocks avdp.mvds) avdp.mvds.lba VdsMask.none ds →
      (kindsOf partNumber ds).haveAll = false →
      Meets image partNumber (extentBlocks avdp.rvds) avdp.rvds.lba (kindsOf partNumber ds) ds' →
      MeetsVds image partNumber avdp (ds ++ ds')

/-- Taking the descriptors one after the other. -/
def takeAll (partNumber : Int) :
    List Descriptor → VdsMask → VolumeDescriptorSet → Res (VdsMask × VolumeDescriptorSet)
  | [], m, vds => .ok (m, vds)
  | (tag, buf) :: ds, m, vds => do
    let (m, vds) ← takeDescriptor partNumber tag buf m vds
    takeAll partNumber ds m vds

section

variable {image : Image} {nblocks : Option UInt32} {partNumber : Int} {m m' : VdsMask}
  {vds vds' : VolumeDescriptorSet} {ds ds' : List Descriptor} {n : Nat} {lba : UInt32}

theorem Meets.unique (h : Meets image partNumber n lba m ds)
    (h' : Meets image partNumber n lba m ds') : ds = ds' := by
  induction h generalizing ds' with
  | empty lba m =>
    cases h'
    rfl
  | pointer htag hloc _ ih =>
    cases h' with
    | pointer htag' hloc' hds' =>
      rw [htag] at htag'
      cases htag'
      rw [hloc] at hloc'
      cases hloc'
      exact ih hds'
    | terminator htag' => simp [htag] at htag'
    | last htag' hne => exact absurd (congrArg Prod.fst (htag.symm.trans htag')).symm hne
    | next htag' hne => exact absurd (congrArg Prod.fst (htag.symm.trans htag')).symm hne
  | terminator htag =>
    cases h' with
    | pointer htag' => simp [htag] at htag'
    | terminator htag' => rfl
    | last htag' _ hne => exact absurd (congrArg Prod.fst (htag.symm.trans htag')).symm hne
    | next htag' _ hne => exact absurd (congrArg Prod.fst (htag.symm.trans htag')).symm hne
  | last htag hpointer hterm hfound =>
    cases h' with
    | pointer htag' => exact absurd (congrArg Prod.fst (htag.symm.trans htag')) hpointer
    | terminator htag' => exact absurd (congrArg Prod.fst (htag.symm.trans htag')) hterm
    | last htag' =>
      rw [htag] at htag'
      cases htag'
      rfl
    | next htag' _ _ hnot =>
      rw [htag] at htag'
      cases htag'
      exact absurd hfound hnot
  | next htag hpointer hterm hnot _ ih =>
    cases h' with
    | pointer htag' => exact absurd (congrArg Prod.fst (htag.symm.trans htag')) hpointer
    | terminator htag' => exact absurd (congrArg Prod.fst (htag.symm.trans htag')) hterm
    | last htag' _ _ hfound =>
      rw [htag] at htag'
      cases htag'
      exact absurd hfound hnot
    | next htag' _ _ _ hds' =>
      rw [htag] at htag'
      cases htag'
      rw [ih hds']

theorem MeetsVds.unique {avdp : AnchorVolumeDescriptor} (h : MeetsVds image partNumber avdp ds)
    (h' : MeetsVds image partNumber avdp ds') : ds = ds' := by
  cases h with
  | main hds hall =>
    cases h' with
    | main hds' _ => exact hds.unique hds'
    | both hds' hnot _ =>
      rw [hds.unique hds', hnot] at hall
      cases hall
  | both hds hnot hreserve =>
    cases h' with
    | main hds' hall =>
      rw [← hds.unique hds', hnot] at hall
      cases hall
    | both hds' _ hreserve' =>
      cases hds.unique hds'
      rw [hreserve.unique hreserve']

/-! ## The scan takes what it meets -/

theorem takeAll_append (h : takeAll partNumber ds m vds = .ok (m', vds')) :
    takeAll partNumber (ds ++ ds') m vds = takeAll partNumber ds' m' vds' := by
  induction ds generalizing m vds with
  | nil =>
    cases h
    rfl
  | cons d ds ih =>
    obtain ⟨tag, buf⟩ := d
    obtain ⟨⟨m₁, vds₁⟩, htake, h⟩ := Res.bind_eq_ok.mp h
    rw [List.cons_append, takeAll, htake, Res.ok_bind]
    exact ih h

/-- A block adds its kind. -/
theorem takeDescriptor_mask {tag : TagIdentifier} {buf : Bytes}
    (hlen : tag ≠ .invalid → buf.length = 2048)
    (h : takeDescriptor partNumber tag buf m vds = .ok (m', vds')) :
    m' = m ⊔ blockKind partNumber tag buf := by
  obtain ⟨vds₁, hkind⟩ : ∃ vds₁, takeDescriptor partNumber tag buf m vds =
      .ok (m ⊔ blockKind partNumber tag buf, vds₁) := takeDescriptor_kind hlen vds
  rw [hkind] at h
  cases h
  rfl

/-- What the scan of an extent has taken: all it meets, or what it meets up to a pointer. -/
def ScanTakes (image : Image) (partNumber : Int) (n : Nat) (lba : UInt32) (m : VdsMask)
    (vds : VolumeDescriptorSet) : ScanEnd → Prop
  | .done m' vds' => ∃ ds, Meets image partNumber n lba m ds ∧
      takeAll partNumber ds m vds = .ok (m', vds')
  | .next loc m' vds' => ∃ ds, takeAll partNumber ds m vds = .ok (m', vds') ∧
      ∀ ds', Meets image partNumber (extentBlocks loc) loc.lba m' ds' →
        Meets image partNumber n lba m (ds ++ ds')

theorem scanExtent_takes {e : ScanEnd}
    (h : scanExtent (.ofImage image nblocks) partNumber n lba m vds () = .ok (e, ())) :
    ScanTakes image partNumber n lba m vds e := by
  induction n generalizing lba m vds with
  | zero =>
    cases h
    exact ⟨[], .empty lba m, rfl⟩
  | succ n ih =>
    have hlen := imageTag_length image lba
    rw [scanExtent, Proc.bind_of_ok (readDescriptorBlock_ofImage lba)] at h
    cases htag : imageTag image lba with
    | mk tag buf =>
    rw [htag] at h hlen
    simp only at h hlen
    by_cases hpointer : tag = .volumeDescriptorPointer
    · rw [if_pos hpointer] at h
      obtain ⟨loc, s, hdec, h⟩ := Proc.bind_eq_ok.mp h
      have hloc := (Proc.ofRes_eq_ok.mp hdec).1
      cases h
      rw [hpointer] at htag
      exact ⟨[], rfl, fun ds' hds' => .pointer htag hloc hds'⟩
    · rw [if_neg hpointer] at h
      by_cases hterm : tag = .terminatingDescriptor
      · rw [if_pos hterm] at h
        cases h
        rw [hterm] at htag
        exact ⟨[], .terminator htag, rfl⟩
      · rw [if_neg hterm] at h
        obtain ⟨⟨m₁, vds₁⟩, s, hproc, h⟩ := Proc.bind_eq_ok.mp h
        have htake := (Proc.ofRes_eq_ok.mp hproc).1
        have hmask := takeDescriptor_mask hlen htake
        simp only at h
        by_cases hfound : Found partNumber m₁
        · have hstop : m₁.haveAll = true ∧ partNumber ≠ partitionLast := hfound
          rw [if_pos hstop] at h
          cases h
          rw [hmask] at hfound
          refine ⟨[(tag, buf)], .last htag hpointer hterm hfound, ?_⟩
          rw [takeAll, htake]
          rfl
        · have hgo : ¬ (m₁.haveAll = true ∧ partNumber ≠ partitionLast) := hfound
          rw [if_neg hgo] at h
          have hrest := ih h
          rw [hmask] at hfound
          cases e with
          | done m' vds' =>
            obtain ⟨ds, hmeets, hall⟩ := hrest
            rw [hmask] at hmeets
            refine ⟨(tag, buf) :: ds, .next htag hpointer hterm hfound hmeets, ?_⟩
            rw [takeAll, htake]
            exact hall
          | next loc m' vds' =>
            obtain ⟨ds, hall, hmeets⟩ := hrest
            rw [hmask] at hmeets
            refine ⟨(tag, buf) :: ds, ?_, fun ds' hds' =>
              .next htag hpointer hterm hfound (hmeets ds' hds')⟩
            rw [takeAll, htake]
            exact hall

theorem searchVds_meets {fuel : Nat} {loc : ExtentAd}
    (h : searchVds (.ofImage image nblocks) partNumber fuel loc m vds () = .ok ((m', vds'), ())) :
    ∃ ds, Meets image partNumber (extentBlocks loc) loc.lba m ds ∧
      takeAll partNumber ds m vds = .ok (m', vds') := by
  induction fuel generalizing loc m vds with
  | zero => cases h
  | succ fuel ih =>
    obtain ⟨e, s, hscan, h⟩ := Proc.bind_eq_ok.mp h
    have hextent := scanExtent_takes hscan
    cases e with
    | done m₁ vds₁ =>
      cases h
      exact hextent
    | next loc' m₁ vds₁ =>
      obtain ⟨ds, hall, hmeets⟩ := hextent
      obtain ⟨ds', hmeets', hall'⟩ := ih h
      refine ⟨ds ++ ds', hmeets ds' hmeets', ?_⟩
      rw [takeAll_append hall]
      exact hall'

/-! ## One descriptor -/

/-- The descriptor is one of the selected partition. -/
def Matches (partNumber : Int) (pd : PartitionDescriptor) : Prop :=
  partNumber < 0 ∨ partNumber = pd.number.toNat

instance (pd : PartitionDescriptor) : Decidable (Matches partNumber pd) :=
  inferInstanceAs (Decidable (_ ∨ _))

/-- What a descriptor can do to the mask and the result. -/
inductive Takes (partNumber : Int) (m : VdsMask) (vds : VolumeDescriptorSet) :
    Descriptor → VdsMask → VolumeDescriptorSet → Prop where
  | primary {buf : Bytes} {pvd : PrimaryVolumeDescriptor} : decodePrimaryVolume buf = .ok pvd →
      Takes partNumber m vds (.primaryVolumeDescriptor, buf) { m with pvd := true } { vds with pvd }
  | logical {buf : Bytes} {lvd : LogicalVolumeDescriptor} :
      decodeLogicalVolume buf vds.lvd = .ok lvd →
      Takes partNumber m vds (.logicalVolumeDescriptor, buf) { m with lvd := true } { vds with lvd }
  | partition {buf : Bytes} {pd : PartitionDescriptor} :
      m.part = false ∨ partNumber = partitionLast → decodePartition buf = .ok pd →
      Takes partNumber m vds (.partitionDescriptor, buf)
        { m with part := m.part || decide (Matches partNumber pd) } { vds with pd }
  | skip {buf : Bytes} : m.part = true → partNumber ≠ partitionLast →
      Takes partNumber m vds (.partitionDescriptor, buf) m vds
  | other {tag : TagIdentifier} {buf : Bytes} : tag ≠ .primaryVolumeDescriptor →
      tag ≠ .logicalVolumeDescriptor → tag ≠ .partitionDescriptor →
      Takes partNumber m vds (tag, buf) m vds

theorem takeDescriptor_takes {tag : TagIdentifier} {buf : Bytes}
    (h : takeDescriptor partNumber tag buf m vds = .ok (m', vds')) :
    Takes partNumber m vds (tag, buf) m' vds' := by
  cases tag with
  | primaryVolumeDescriptor =>
    obtain ⟨pvd, hdec, h⟩ := Res.bind_eq_ok.mp h
    cases h
    exact .primary hdec
  | logicalVolumeDescriptor =>
    obtain ⟨lvd, hdec, h⟩ := Res.bind_eq_ok.mp h
    cases h
    exact .logical hdec
  | partitionDescriptor =>
    unfold takeDescriptor at h
    simp only at h
    split at h
    · rename_i hopen
      obtain ⟨pd, hdec, h⟩ := Res.bind_eq_ok.mp h
      cases h
      exact .partition (by simpa using hopen) hdec
    · rename_i hclosed
      cases h
      have hskip : m.part = true ∧ partNumber ≠ partitionLast := by simpa using hclosed
      exact .skip hskip.1 hskip.2
  | _ =>
    cases h
    exact .other (by simp) (by simp) (by simp)

/-! ## All descriptors -/

/-- The Partition Descriptors among the descriptors. -/
def partitionsOf (ds : List Descriptor) : List PartitionDescriptor :=
  ds.filterMap fun d =>
    if d.1 = .partitionDescriptor then (decodePartition d.2).toOption else none

@[simp] theorem partitionsOf_cons_of_ne {tag : TagIdentifier} {buf : Bytes}
    (h : tag ≠ .partitionDescriptor) : partitionsOf ((tag, buf) :: ds) = partitionsOf ds := by
  simp [partitionsOf, h]

theorem partitionsOf_cons {buf : Bytes} {pd : PartitionDescriptor}
    (h : decodePartition buf = .ok pd) :
    partitionsOf ((.partitionDescriptor, buf) :: ds) = pd :: partitionsOf ds := by
  simp [partitionsOf, h, Except.toOption]

/-- A descriptor of the kind was met. -/
def HasPrimary (ds : List Descriptor) : Prop := ∃ buf, (.primaryVolumeDescriptor, buf) ∈ ds

def HasLogical (ds : List Descriptor) : Prop := ∃ buf, (.logicalVolumeDescriptor, buf) ∈ ds

/-- A Partition Descriptor of the selected partition was met. -/
def HasPartition (partNumber : Int) (ds : List Descriptor) : Prop :=
  ∃ pd ∈ partitionsOf ds, Matches partNumber pd

/-- The induction over the descriptors taken: what one descriptor preserves, all of them do. -/
theorem takeAll_induct {P : List Descriptor → VdsMask → VolumeDescriptorSet → Prop}
    (hnil : P [] m' vds')
    (hcons : ∀ d ds m vds m₁ vds₁, Takes partNumber m vds d m₁ vds₁ → P ds m₁ vds₁ →
      P (d :: ds) m vds)
    (h : takeAll partNumber ds m vds = .ok (m', vds')) : P ds m vds := by
  induction ds generalizing m vds with
  | nil =>
    cases h
    exact hnil
  | cons d ds ih =>
    obtain ⟨tag, buf⟩ := d
    obtain ⟨⟨m₁, vds₁⟩, htake, h⟩ := Res.bind_eq_ok.mp h
    exact hcons _ _ _ _ _ _ (takeDescriptor_takes htake) (ih h)

theorem takeAll_pvd (h : takeAll partNumber ds m vds = .ok (m', vds')) :
    m'.pvd = true ↔ m.pvd = true ∨ HasPrimary ds := by
  refine takeAll_induct (P := fun ds m _ => m'.pvd = true ↔ m.pvd = true ∨ HasPrimary ds) ?_ ?_ h
  · simp [HasPrimary]
  · intro d ds m vds m₁ vds₁ htake ih
    rw [ih]
    cases htake with
    | primary => simp [HasPrimary]
    | logical => simp [HasPrimary]
    | partition => simp [HasPrimary]
    | skip => simp [HasPrimary]
    | other hne => simp [HasPrimary, Ne.symm hne]

theorem takeAll_part (h : takeAll partNumber ds m vds = .ok (m', vds')) :
    m'.part = true ↔ m.part = true ∨ HasPartition partNumber ds := by
  refine takeAll_induct
    (P := fun ds m _ => m'.part = true ↔ m.part = true ∨ HasPartition partNumber ds) ?_ ?_ h
  · simp [HasPartition, partitionsOf]
  · intro d ds m vds m₁ vds₁ htake ih
    rw [ih]
    cases htake with
    | primary => simp [HasPartition]
    | logical => simp [HasPartition]
    | partition _ hdec => simp [HasPartition, partitionsOf_cons hdec, or_assoc]
    | skip hm => simp [hm]
    | other _ _ hne => simp [HasPartition, hne]

/-- The Logical Volume Descriptor of the result is decoded from one that was met. -/
theorem takeAll_logical (h : takeAll partNumber ds m vds = .ok (m', vds')) (hds : HasLogical ds) :
    ∃ buf old, (.logicalVolumeDescriptor, buf) ∈ ds ∧ decodeLogicalVolume buf old = .ok vds'.lvd := by
  have hall : (∃ buf old, (.logicalVolumeDescriptor, buf) ∈ ds ∧
      decodeLogicalVolume buf old = .ok vds'.lvd) ∨ ¬ HasLogical ds ∧ vds'.lvd = vds.lvd := by
    refine takeAll_induct (P := fun ds _ vds => (∃ buf old, (.logicalVolumeDescriptor, buf) ∈ ds ∧
      decodeLogicalVolume buf old = .ok vds'.lvd) ∨ ¬ HasLogical ds ∧ vds'.lvd = vds.lvd) ?_ ?_ h
    · simp [HasLogical]
    · intro d ds m vds m₁ vds₁ htake ih
      rcases ih with ⟨buf, old, hmem, hdec⟩ | ⟨hnone, hlvd⟩
      · exact .inl ⟨buf, old, List.mem_cons_of_mem _ hmem, hdec⟩
      · rw [hlvd]
        cases htake with
        | primary => exact .inr ⟨by simpa [HasLogical] using hnone, rfl⟩
        | logical hdec => exact .inl ⟨_, _, List.mem_cons_self, hdec⟩
        | partition => exact .inr ⟨by simpa [HasLogical] using hnone, rfl⟩
        | skip => exact .inr ⟨by simpa [HasLogical] using hnone, rfl⟩
        | other _ hne => exact .inr ⟨by simpa [HasLogical, Ne.symm hne] using hnone, rfl⟩
  exact hall.resolve_right fun hc => hc.1 hds

/-- With the last partition selected, each Partition Descriptor replaces the one before. -/
theorem takeAll_pd_last (h : takeAll partitionLast ds m vds = .ok (m', vds')) :
    vds'.pd = (partitionsOf ds).getLast?.getD vds.pd := by
  refine takeAll_induct
    (P := fun ds _ vds => vds'.pd = (partitionsOf ds).getLast?.getD vds.pd) rfl ?_ h
  intro d ds m vds m₁ vds₁ htake ih
  rw [ih]
  cases htake with
  | primary => simp
  | logical => simp
  | partition _ hdec =>
    rw [partitionsOf_cons hdec]
    cases partitionsOf ds with
    | nil => rfl
    | cons pd pds => simp [List.getLast?_cons]
  | skip _ hne => exact absurd rfl hne
  | other _ _ hne => simp [hne]

/-- Otherwise the first one that matches stays. -/
theorem takeAll_pd (hlast : partNumber ≠ partitionLast)
    (h : takeAll partNumber ds m vds = .ok (m', vds')) :
    (m.part = true → vds'.pd = vds.pd) ∧
      (m.part = false → ∀ pd, (partitionsOf ds).find? (fun pd => Matches partNumber pd) = some pd →
        vds'.pd = pd) := by
  refine takeAll_induct (P := fun ds m vds => (m.part = true → vds'.pd = vds.pd) ∧
    (m.part = false → ∀ pd, (partitionsOf ds).find? (fun pd => Matches partNumber pd) = some pd →
      vds'.pd = pd)) ?_ ?_ h
  · exact ⟨fun _ => rfl, fun _ pd hpd => by simp [partitionsOf] at hpd⟩
  · intro d ds m vds m₁ vds₁ htake ih
    cases htake with
    | primary => simpa using ih
    | logical => simpa using ih
    | partition hopen hdec =>
      have hm := hopen.resolve_right hlast
      rw [partitionsOf_cons hdec]
      refine ⟨fun hc => by simp [hm] at hc, fun _ pd hpd => ?_⟩
      rw [List.find?_cons] at hpd
      split at hpd
      · rename_i hmatch
        cases hpd
        exact ih.1 (by simpa using .inr (of_decide_eq_true hmatch))
      · rename_i hmatch
        exact ih.2 (by simp [hm, of_decide_eq_false hmatch]) pd hpd
    | skip hm _ => exact ⟨ih.1, fun hc => by simp [hm] at hc⟩
    | other _ _ hne => simpa [hne] using ih

/-! ## Reading the sequence -/

theorem Meets.length_eq (h : Meets image partNumber n lba m ds) :
    ∀ tag buf, (tag, buf) ∈ ds → tag ≠ .invalid → buf.length = 2048 := by
  have hblock : ∀ {lba : UInt32} {tag : TagIdentifier} {buf : Bytes},
      imageTag image lba = (tag, buf) → tag ≠ .invalid → buf.length = 2048 := by
    intro lba tag buf htag hvalid
    have hlen := imageTag_length image lba
    rw [htag] at hlen
    exact hlen hvalid
  induction h with
  | empty => simp
  | pointer _ _ _ ih => exact ih
  | terminator => simp
  | last htag =>
    intro tag buf hmem
    cases List.mem_singleton.mp hmem
    exact hblock htag
  | next htag _ _ _ _ ih =>
    intro tag buf hmem
    rcases List.mem_cons.mp hmem with heq | hmem
    · cases heq
      exact hblock htag
    · exact ih tag buf hmem

theorem takeAll_mask (hlen : ∀ tag buf, (tag, buf) ∈ ds → tag ≠ .invalid → buf.length = 2048)
    (h : takeAll partNumber ds m vds = .ok (m', vds')) : m' = m ⊔ kindsOf partNumber ds := by
  induction ds generalizing m vds with
  | nil =>
    cases h
    exact (sup_none _).symm
  | cons d ds ih =>
    obtain ⟨tag, buf⟩ := d
    obtain ⟨⟨m₁, vds₁⟩, htake, h⟩ := Res.bind_eq_ok.mp h
    rw [ih (fun tag buf hmem => hlen tag buf (List.mem_cons_of_mem _ hmem)) h,
      takeDescriptor_mask (hlen tag buf List.mem_cons_self) htake, sup_assoc]
    rfl

theorem none_sup (m : VdsMask) : VdsMask.none ⊔ m = m := by
  rw [sup_comm, sup_none]

/-- `udf_read_vds` takes the descriptors met, and succeeds when the required ones are found. -/
theorem udfReadVds_meets {avdp : AnchorVolumeDescriptor} {fuel : Nat}
    {r : Option VolumeDescriptorSet}
    (ha : readAvdp (.ofImage image nblocks) () = .ok (some avdp, ()))
    (h : udfReadVds (.ofImage image nblocks) fuel partNumber () = .ok (r, ())) :
    ∃ ds m vds, MeetsVds image partNumber avdp ds ∧
      takeAll partNumber ds VdsMask.none .zero = .ok (m, vds) ∧
      r = if m.haveRequired then some vds else none := by
  rw [udfReadVds, Proc.bind_of_ok ha] at h
  obtain ⟨⟨m, vds⟩, s, hmain, h⟩ := Proc.bind_eq_ok.mp h
  obtain ⟨ds, hmeets, htake⟩ := searchVds_meets hmain
  have hmask := takeAll_mask hmeets.length_eq htake
  rw [none_sup] at hmask
  simp only at h
  by_cases hall : m.haveAll = true
  · rw [if_pos hall] at h
    cases h
    refine ⟨ds, m, vds, .main hmeets (by rwa [← hmask]), htake, ?_⟩
    have hreq : m.haveRequired = true := by
      simp only [VdsMask.haveAll, VdsMask.haveRequired, Bool.and_eq_true] at hall ⊢
      exact hall.1
    rw [if_pos hreq]
  · rw [if_neg hall] at h
    obtain ⟨⟨m', vds'⟩, s', hreserve, h⟩ := Proc.bind_eq_ok.mp h
    obtain ⟨ds', hmeets', htake'⟩ := searchVds_meets hreserve
    rw [hmask] at hmeets'
    refine ⟨ds ++ ds', m', vds', .both hmeets (by rw [← hmask]; simpa using hall) hmeets', ?_, ?_⟩
    · rw [takeAll_append htake]
      exact htake'
    · simp only at h
      split
      · rw [if_pos ‹_›] at h
        cases h
        rfl
      · rw [if_neg ‹_›] at h
        cases h
        rfl

/-- The partition of a successful search is one that was met and matches. -/
theorem takeAll_pd_matches (h : takeAll partNumber ds VdsMask.none vds = .ok (m', vds'))
    (hds : HasPartition partNumber ds) :
    vds'.pd ∈ partitionsOf ds ∧ Matches partNumber vds'.pd := by
  obtain ⟨pd, hmem, hmatch⟩ := hds
  by_cases hlast : partNumber = partitionLast
  · subst hlast
    have hpd := takeAll_pd_last h
    cases hget : (partitionsOf ds).getLast? with
    | none =>
      rw [List.getLast?_eq_none_iff.mp hget] at hmem
      cases hmem
    | some last =>
      rw [hget, Option.getD_some] at hpd
      rw [hpd]
      exact ⟨List.mem_of_getLast? hget, .inl (by decide)⟩
  · cases hfind : (partitionsOf ds).find? (fun pd => Matches partNumber pd) with
    | none => exact absurd (by simpa using hmatch) (List.find?_eq_none.mp hfind pd hmem)
    | some found =>
      rw [(takeAll_pd hlast h).2 rfl found hfind]
      exact ⟨List.mem_of_find?_eq_some hfind, by simpa using List.find?_some hfind⟩

/-- The result of `udf_read_vds` says that a Logical Volume Descriptor and a Partition Descriptor of
the selected partition were met, and holds them, exactly if the scan has not met one of a Primary
and a Logical Volume Descriptor without the other. -/
theorem udfReadVds_required_iff {avdp : AnchorVolumeDescriptor} {fuel : Nat}
    {r : Option VolumeDescriptorSet}
    (ha : readAvdp (.ofImage image nblocks) () = .ok (some avdp, ()))
    (h : udfReadVds (.ofImage image nblocks) fuel partNumber () = .ok (r, ())) :
    ∃ ds, MeetsVds image partNumber avdp ds ∧
      (((r.isSome = true ↔ HasLogical ds ∧ HasPartition partNumber ds) ∧
        ∀ vds, r = some vds →
          (∃ buf old, (.logicalVolumeDescriptor, buf) ∈ ds ∧
            decodeLogicalVolume buf old = .ok vds.lvd) ∧
          vds.pd ∈ partitionsOf ds ∧ Matches partNumber vds.pd) ↔
      (HasPartition partNumber ds → (HasPrimary ds ↔ HasLogical ds))) := by
  obtain ⟨ds, m, vds, hmeets, htake, hr⟩ := udfReadVds_meets ha h
  refine ⟨ds, hmeets, ?_⟩
  have hpart : m.part = true ↔ HasPartition partNumber ds := by
    rw [takeAll_part htake]
    simp [VdsMask.none]
  have hpvd : m.pvd = true ↔ HasPrimary ds := by
    rw [takeAll_pvd htake]
    simp [VdsMask.none]
  have hsome : r.isSome = true ↔ HasPartition partNumber ds ∧ HasPrimary ds := by
    rw [hr, ← hpart, ← hpvd, ← Bool.and_eq_true, ← VdsMask.haveRequired]
    cases m.haveRequired with
    | false => simp
    | true => simp
  constructor
  · rintro ⟨hiff, -⟩ hds
    rw [hsome] at hiff
    exact ⟨fun hp => (hiff.mp ⟨hds, hp⟩).1, fun hl => (hiff.mpr ⟨hl, hds⟩).2⟩
  · intro hcond
    refine ⟨?_, fun vds' hvds => ?_⟩
    · rw [hsome]
      constructor
      · rintro ⟨hds, hp⟩
        exact ⟨(hcond hds).mp hp, hds⟩
      · rintro ⟨hl, hds⟩
        exact ⟨hds, (hcond hds).mpr hl⟩
    · obtain ⟨hds, hp⟩ := hsome.mp (by rw [hvds]; rfl)
      have hreq : m.haveRequired = true := by
        simp [VdsMask.haveRequired, hpart, hpvd, hds, hp]
      rw [hr, if_pos hreq] at hvds
      cases hvds
      exact ⟨takeAll_logical htake ((hcond hds).mp hp), takeAll_pd_matches htake hds⟩

end

/-! ## A volume without its Primary Volume Descriptor -/

/-- Block 32 cannot be read. -/
def lostPrimary : Image := fun lba => if lba = 32 then none else emptyVolume 7 lba

def minimalAvdp : AnchorVolumeDescriptor where
  mvds := { lba := 32, length := 6144 }
  rvds := { lba := 0, length := 0 }

theorem lostPrimary_avdp : readAvdp (.ofImage lostPrimary none) () = .ok (some minimalAvdp, ()) := by
  decide +kernel

deriving instance DecidableEq for LogicalVolumeDescriptor, VolumeDescriptorSet

theorem lostPrimary_vds :
    udfReadVds (.ofImage lostPrimary none) 1 partitionFirst () = .ok (none, ()) := by
  decide +kernel

theorem lostPrimary_tags : imageTag lostPrimary 32 = (.invalid, []) ∧
    imageTag lostPrimary 33 = (.partitionDescriptor, blockBytes (partitionBlock 7)) ∧
    imageTag lostPrimary 34 = (.logicalVolumeDescriptor, blockBytes (logicalBlock 7)) := by
  decide +kernel

theorem udfReadVds_required_iff_lostPrimary :
    ∃ ds, MeetsVds lostPrimary partitionFirst minimalAvdp ds ∧
      ((((none : Option VolumeDescriptorSet).isSome = true ↔
          HasLogical ds ∧ HasPartition partitionFirst ds) ∧
        ∀ vds : VolumeDescriptorSet, none = some vds →
          (∃ buf old, (.logicalVolumeDescriptor, buf) ∈ ds ∧
            decodeLogicalVolume buf old = .ok vds.lvd) ∧
          vds.pd ∈ partitionsOf ds ∧ Matches partitionFirst vds.pd) ↔
      (HasPartition partitionFirst ds → (HasPrimary ds ↔ HasLogical ds))) :=
  udfReadVds_required_iff lostPrimary_avdp lostPrimary_vds

def lostPrimaryDescriptors : List Descriptor :=
  [(.invalid, []), (.partitionDescriptor, blockBytes (partitionBlock 7)),
   (.logicalVolumeDescriptor, blockBytes (logicalBlock 7))]

theorem lostPrimary_meets :
    MeetsVds lostPrimary partitionFirst minimalAvdp (lostPrimaryDescriptors ++ []) := by
  obtain ⟨h32, h33, h34⟩ := lostPrimary_tags
  refine .both (.next h32 ?_ ?_ ?_ (.next h33 ?_ ?_ ?_ (.next h34 ?_ ?_ ?_ (.empty _ _)))) ?_
    (.empty _ _)
  all_goals decide +kernel

/-- The Logical Volume Descriptor and a Partition Descriptor are met, but the call fails. -/
theorem lostPrimary_fails :
    readAvdp (.ofImage lostPrimary none) () = .ok (some minimalAvdp, ()) ∧
    udfReadVds (.ofImage lostPrimary none) 1 partitionFirst () = .ok (none, ()) ∧
    ∃ ds, MeetsVds lostPrimary partitionFirst minimalAvdp ds ∧ HasLogical ds ∧
      HasPartition partitionFirst ds ∧ ¬ HasPrimary ds := by
  refine ⟨lostPrimary_avdp, lostPrimary_vds, _, lostPrimary_meets,
    ⟨_, .tail _ (.tail _ (.head _))⟩, ⟨{ number := 7, startBlock := 300, numBlocks := 0 }, ?_,
    .inl (by decide)⟩, ?_⟩
  · simp [lostPrimaryDescriptors, partitionsOf, partitionBlock_decode, Except.toOption]
  · simp [lostPrimaryDescriptors, HasPrimary]

end UdfRead
