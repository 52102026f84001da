import UdfRead.Image
import UdfRead.Volume
import UdfRead.Lib.Orbit

/-!
# UdfRead.VdsTermination

When reading the volume descriptor sequence ends. What an extent holds is a property of the image:
the kinds of descriptors in front of its first pointer or terminator (`extentKinds`), and the
pointer (`extentPointer`). `_search_vds` follows the pointers and gathers the kinds, so it ends
exactly if the walk does not come back to an extent before it has found all kinds
(`udfReadVds_ends_iff`).
-/

namespace UdfRead

open CModel

namespace VdsMask

instance : Max VdsMask where
  max m n := { part := m.part || n.part, pvd := m.pvd || n.pvd, lvd := m.lvd || n.lvd }

theorem sup_def (m n : VdsMask) :
    m ⊔ n = { part := m.part || n.part, pvd := m.pvd || n.pvd, lvd := m.lvd || n.lvd } := rfl

instance : SemilatticeSup VdsMask :=
  SemilatticeSup.mk' (fun m n => by simp [sup_def, Bool.or_comm])
    (fun m n k => by simp [sup_def, Bool.or_assoc]) (fun m => by simp [sup_def])

end VdsMask

/-! ## What an extent holds -/

/-- The kind of descriptor found in a block: a partition descriptor counts when it is the selected
one. -/
def blockKind (partNumber : Int) (tag : TagIdentifier) (buf : Bytes) : VdsMask :=
  match tag with
  | .primaryVolumeDescriptor => { VdsMask.none with pvd := true }
  | .logicalVolumeDescriptor => { VdsMask.none with lvd := true }
  | .partitionDescriptor =>
    match decodePartition buf with
    | .ok pd => { VdsMask.none with part := decide (partNumber < 0 ∨ partNumber = pd.number.toNat) }
    | .error _ => VdsMask.none
  | _ => VdsMask.none

/-- The kinds in the `n` blocks from `lba` on, up to a pointer or a terminator. -/
def kindsFrom (image : Image) (partNumber : Int) : (n : Nat) → (lba : UInt32) → VdsMask
  | 0, _ => VdsMask.none
  | n + 1, lba =>
    let (tag, buf) := imageTag image lba
    if tag = .volumeDescriptorPointer ∨ tag = .terminatingDescriptor then VdsMask.none
    else blockKind partNumber tag buf ⊔ kindsFrom image partNumber n (lba + 1)

/-- The first Volume Descriptor Pointer in front of a terminator. -/
def pointerFrom (image : Image) : (n : Nat) → (lba : UInt32) → Option ExtentAd
  | 0, _ => none
  | n + 1, lba =>
    let (tag, buf) := imageTag image lba
    if tag = .volumeDescriptorPointer then (decodeVdp buf).toOption
    else if tag = .terminatingDescriptor then none
    else pointerFrom image n (lba + 1)

def extentKinds (image : Image) (partNumber : Int) (loc : ExtentAd) : VdsMask :=
  kindsFrom image partNumber (extentBlocks loc) loc.lba

def extentPointer (image : Image) (loc : ExtentAd) : Option ExtentAd :=
  pointerFrom image (extentBlocks loc) loc.lba

/-- All kinds are found, and the selection is not the last partition, for which the scan goes on. -/
def Found (partNumber : Int) (m : VdsMask) : Prop := m.haveAll = true ∧ partNumber ≠ partitionLast

instance (partNumber : Int) (m : VdsMask) : Decidable (Found partNumber m) :=
  inferInstanceAs (Decidable (_ ∧ _))

section

variable {image : Image} {nblocks : Option UInt32} {partNumber : Int} {m m' : VdsMask}

theorem haveAll_mono (h : m ≤ m') (hm : m.haveAll = true) : m'.haveAll = true := by
  have he : m ⊔ m' = m' := sup_eq_right.mpr h
  rw [VdsMask.sup_def] at he
  rw [← he]
  simp only [VdsMask.haveAll, Bool.and_eq_true] at hm ⊢
  simp [hm]

theorem found_mono (m m' : VdsMask) (h : m ≤ m') (hm : Found partNumber m) : Found partNumber m' :=
  ⟨haveAll_mono h hm.1, hm.2⟩

theorem haveAll_sup (hm : m.haveAll = true) (m' : VdsMask) : m ⊔ m' = m := by
  simp only [VdsMask.haveAll, Bool.and_eq_true] at hm
  rw [VdsMask.sup_def]
  obtain ⟨part, pvd, lvd⟩ := m
  simp_all

@[simp] theorem sup_none (m : VdsMask) : m ⊔ VdsMask.none = m := by
  simp [VdsMask.sup_def, VdsMask.none]

/-- A block adds its kind to the mask. -/
theorem takeDescriptor_kind {tag : TagIdentifier} {buf : Bytes}
    (hbuf : tag ≠ .invalid → buf.length = 2048) (vds : VolumeDescriptorSet) :
    ∃ vds', takeDescriptor partNumber tag buf m vds =
      .ok (m ⊔ blockKind partNumber tag buf, vds') := by
  cases tag with
  | primaryVolumeDescriptor =>
    obtain ⟨pvd, h⟩ := decodePrimaryVolume_ok (hbuf (by simp))
    refine ⟨{ vds with pvd }, ?_⟩
    simp [takeDescriptor, h, blockKind, VdsMask.sup_def, VdsMask.none]
  | logicalVolumeDescriptor =>
    obtain ⟨lvd, h⟩ := decodeLogicalVolume_ok (hbuf (by simp)) vds.lvd
    refine ⟨{ vds with lvd }, ?_⟩
    simp [takeDescriptor, h, blockKind, VdsMask.sup_def, VdsMask.none]
  | partitionDescriptor =>
    obtain ⟨pd, h⟩ := decodePartition_ok (hbuf (by simp))
    by_cases hp : (!m.part || decide (partNumber = partitionLast)) = true
    · refine ⟨{ vds with pd }, ?_⟩
      simp [takeDescriptor, hp, h, blockKind, VdsMask.sup_def, VdsMask.none]
    · refine ⟨vds, ?_⟩
      have hm : m.part = true ∧ partNumber ≠ partitionLast := by simpa using hp
      simp [takeDescriptor, h, blockKind, VdsMask.sup_def, VdsMask.none, hm.1, hm.2]
      rw [← hm.1]
  | _ => exact ⟨vds, by simp [takeDescriptor, blockKind]⟩

/-- The scan of an extent: it stops when all kinds are found, else it ends at the pointer, if there
is one. -/
theorem scanExtent_ofImage (image : Image) (nblocks : Option UInt32) (n : Nat) (lba : UInt32)
    (m : VdsMask) (vds : VolumeDescriptorSet)
    (hm : ¬ Found partNumber m) :
    ∃ vds', scanExtent (BlockInput.ofImage image nblocks) partNumber n lba m vds () =
      .ok (if Found partNumber (m ⊔ kindsFrom image partNumber n lba) then
          .done (m ⊔ kindsFrom image partNumber n lba) vds'
        else match pointerFrom image n lba with
          | none => .done (m ⊔ kindsFrom image partNumber n lba) vds'
          | some loc => .next loc (m ⊔ kindsFrom image partNumber n lba) vds', ()) := by
  induction n generalizing lba m vds with
  | zero =>
    refine ⟨vds, ?_⟩
    simp only [kindsFrom, pointerFrom, sup_none, if_neg hm]
    rfl
  | succ n ih =>
    have hlen := imageTag_length image lba
    rw [scanExtent, Proc.bind_of_ok (readDescriptorBlock_ofImage lba), kindsFrom, pointerFrom]
    cases ht : imageTag image lba with
    | mk tag buf =>
    rw [ht] at hlen
    simp only
    by_cases hv : tag = .volumeDescriptorPointer
    · subst hv
      obtain ⟨ad, had⟩ := decodeVdp_ok (hlen (by simp))
      refine ⟨vds, ?_⟩
      simp only [true_or, if_true, sup_none, if_neg hm, had]
      rfl
    · by_cases hterm : tag = .terminatingDescriptor
      · subst hterm
        refine ⟨vds, ?_⟩
        simp only [hv, or_true, if_true, if_false, sup_none, if_neg hm]
        rfl
      · obtain ⟨vds₁, htake⟩ : ∃ vds', takeDescriptor partNumber tag buf m vds =
            .ok (m ⊔ blockKind partNumber tag buf, vds') := takeDescriptor_kind hlen vds
        have hgo : (Proc.ofRes (.ok (m ⊔ blockKind partNumber tag buf, vds₁)) :
            Proc Unit (VdsMask × VolumeDescriptorSet)) () = .ok (_, ()) := rfl
        simp only [hv, hterm, or_self, if_false, htake, ← sup_assoc]
        rw [Proc.bind_of_ok hgo]
        by_cases hfound : Found partNumber (m ⊔ blockKind partNumber tag buf)
        · -- the scan stops at this block, and the rest adds nothing to a full mask
          have hstop : (m ⊔ blockKind partNumber tag buf).haveAll = true ∧
            partNumber ≠ partitionLast := hfound
          refine ⟨vds₁, ?_⟩
          simp only [haveAll_sup hfound.1, if_pos hfound, if_pos hstop]
          rfl
        · obtain ⟨vds', hrun⟩ := ih (lba + 1) (m ⊔ blockKind partNumber tag buf) vds₁ hfound
          have hgo : ¬ ((m ⊔ blockKind partNumber tag buf).haveAll = true ∧
            partNumber ≠ partitionLast) := hfound
          refine ⟨vds', ?_⟩
          simp only [if_neg hgo, hrun]

/-! ## Following the pointers -/

theorem searchEnds_next (partNumber : Int) (m : VdsMask) {loc loc' : ExtentAd}
    (h : extentPointer image loc = some loc') (n : Nat) :
    (orbit (extentPointer image) loc (n + 1) = orbit (extentPointer image) loc' n) ∧
      gather (extentPointer image) (extentKinds image partNumber) loc m (n + 1) =
        gather (extentPointer image) (extentKinds image partNumber) loc'
          (m ⊔ extentKinds image partNumber loc) n :=
  ⟨orbit_shift h n, gather_shift h n⟩

/-- A search that returns has come to the end of its walk. -/
theorem ends_of_searchVds (fuel : Nat) (loc : ExtentAd) (m : VdsMask) (vds : VolumeDescriptorSet)
    (hm : ¬ Found partNumber m) {r : VdsMask × VolumeDescriptorSet}
    (h : searchVds (BlockInput.ofImage image nblocks) partNumber fuel loc m vds () = .ok (r, ())) :
    ∃ n, r.1 = gather (extentPointer image) (extentKinds image partNumber) loc m n ∧
      (orbit (extentPointer image) loc n = none ∨ Found partNumber r.1) := by
  induction fuel generalizing loc m vds with
  | zero => cases h
  | succ fuel ih =>
    obtain ⟨vds', hscan⟩ := scanExtent_ofImage image nblocks
      (extentBlocks loc) loc.lba m vds hm
    rw [searchVds, Proc.bind_of_ok hscan] at h
    by_cases hf : Found partNumber (m ⊔ extentKinds image partNumber loc)
    · have hf' : Found partNumber (m ⊔ kindsFrom image partNumber (extentBlocks loc) loc.lba) := hf
      simp only [if_pos hf'] at h
      cases h
      exact ⟨1, rfl, .inr hf⟩
    · have hf' : ¬ Found partNumber (m ⊔ kindsFrom image partNumber (extentBlocks loc) loc.lba) := hf
      simp only [if_neg hf'] at h
      cases hp : extentPointer image loc with
      | none =>
        have hp' : pointerFrom image (extentBlocks loc) loc.lba = none := hp
        simp only [hp'] at h
        cases h
        exact ⟨1, rfl, .inl hp⟩
      | some loc' =>
        have hp' : pointerFrom image (extentBlocks loc) loc.lba = some loc' := hp
        simp only [hp'] at h
        obtain ⟨n, hr, hend⟩ := ih loc' _ vds' hf h
        obtain ⟨ho, hg⟩ := searchEnds_next partNumber m hp n
        exact ⟨n + 1, by rw [hg]; exact hr, by rw [ho]; exact hend⟩

/-- A walk that ends within `n` extents is searched with as many units of fuel. -/
theorem searchVds_of_ends (image : Image) (nblocks : Option UInt32) (n : Nat) (loc : ExtentAd)
    (m : VdsMask) (vds : VolumeDescriptorSet)
    (hm : ¬ Found partNumber m)
    (h : orbit (extentPointer image) loc n = none ∨
      Found partNumber (gather (extentPointer image) (extentKinds image partNumber) loc m n)) :
    ∃ r, searchVds (BlockInput.ofImage image nblocks) partNumber n loc m vds () = .ok (r, ()) := by
  induction n generalizing loc m vds with
  | zero =>
    rcases h with h | h
    · cases h
    · exact absurd h hm
  | succ n ih =>
    obtain ⟨vds', hscan⟩ := scanExtent_ofImage image nblocks
      (extentBlocks loc) loc.lba m vds hm
    rw [searchVds, Proc.bind_of_ok hscan]
    by_cases hf : Found partNumber (m ⊔ kindsFrom image partNumber (extentBlocks loc) loc.lba)
    · simp only [if_pos hf]
      exact ⟨_, rfl⟩
    · simp only [if_neg hf]
      cases hp : pointerFrom image (extentBlocks loc) loc.lba with
      | none => exact ⟨_, rfl⟩
      | some loc' =>
        have hp' : extentPointer image loc = some loc' := hp
        obtain ⟨ho, hg⟩ := searchEnds_next partNumber m hp' n
        rw [ho, hg] at h
        exact ih loc' _ vds' hf h

instance : Finite ExtentAd := by
  have hu : Finite UInt32 := Finite.of_injective UInt32.toFin fun a b h => UInt32.toFin_inj.mp h
  refine Finite.of_injective (fun e : ExtentAd => (e.lba, e.length)) fun a b h => ?_
  obtain ⟨lba, length⟩ := a
  simp only [Prod.mk.injEq] at h
  rw [h.1, h.2]

/-- The kinds found by a search that is over: those of the whole walk, if they are not all. -/
theorem searchEnd_haveAll {loc : ExtentAd} {n k : Nat}
    (hend : orbit (extentPointer image) loc n = none ∨ Found partNumber
      (gather (extentPointer image) (extentKinds image partNumber) loc m n))
    (hk : (gather (extentPointer image) (extentKinds image partNumber) loc m k).haveAll = true) :
    (gather (extentPointer image) (extentKinds image partNumber) loc m n).haveAll = true := by
  rcases hend with hn | hf
  · rcases Nat.le_total k n with hkn | hkn
    · exact haveAll_mono (gather_mono hkn) hk
    · rwa [gather_end hn hkn] at hk
  · exact hf.1

/-- Where the walk ends does not change what it gathers. -/
theorem gather_ends {loc : ExtentAd} {n n' : Nat} (hn : orbit (extentPointer image) loc n = none)
    (hn' : orbit (extentPointer image) loc n' = none) :
    gather (extentPointer image) (extentKinds image partNumber) loc m n =
      gather (extentPointer image) (extentKinds image partNumber) loc m n' := by
  rcases Nat.le_total n n' with h | h
  · exact (gather_end hn h).symm
  · exact gather_end hn' h

theorem readAvdp_ofImage (image : Image) (nblocks : Option UInt32) :
    ∃ r, readAvdp (BlockInput.ofImage image nblocks) () = .ok (r, ()) := by
  have hfirst : ∀ (lba : UInt32) (next : Proc Unit (Option AnchorVolumeDescriptor)),
      (∃ r, next () = .ok (r, ())) → ∃ r, ((do
        let (tag, buf) ← (BlockInput.ofImage image nblocks).readDescriptorBlock lba
        if tag = .anchorVolumeDescriptorPointer then return some (← Proc.ofRes (decodeAvdp buf))
        next) : Proc Unit (Option AnchorVolumeDescriptor)) () = .ok (r, ()) := by
    intro lba next hnext
    rw [Proc.bind_of_ok (readDescriptorBlock_ofImage lba)]
    by_cases ht : (imageTag image lba).1 = .anchorVolumeDescriptorPointer
    · obtain ⟨avdp, ha⟩ := decodeAvdp_ok (imageTag_length image lba (by rw [ht]; simp))
      simp only [ht, if_true, ha]
      exact ⟨_, rfl⟩
    · simp only [ht, if_false]
      exact hnext
  refine hfirst 256 _ ?_
  cases nblocks with
  | none => exact ⟨_, rfl⟩
  | some n => exact hfirst (n - 1) _ (hfirst (n - 1 - 256) _ ⟨_, rfl⟩)

/-- Following the pointers from the main sequence comes back to no extent before all kinds are
found; and where the main sequence does not hold all kinds, neither does following them from the
reserve sequence. -/
structure PointersEnd (image : Image) (partNumber : Int) (avdp : AnchorVolumeDescriptor) : Prop where
  main : NoReturn (extentPointer image) (extentKinds image partNumber) (Found partNumber)
    avdp.mvds VdsMask.none
  reserve : (∀ n, (gather (extentPointer image) (extentKinds image partNumber) avdp.mvds
      VdsMask.none n).haveAll = false) →
    ∀ n, orbit (extentPointer image) avdp.mvds n = none →
      NoReturn (extentPointer image) (extentKinds image partNumber) (Found partNumber) avdp.rvds
        (gather (extentPointer image) (extentKinds image partNumber) avdp.mvds VdsMask.none n)

theorem not_found_none : ¬ Found partNumber VdsMask.none := fun h => absurd h.1 (by decide)

theorem not_found (h : m.haveAll = false) : ¬ Found partNumber m := fun hf => by
  have := hf.1
  rw [h] at this
  cases this

theorem pointersEnd_of_returns {avdp : AnchorVolumeDescriptor}
    (ha : readAvdp (BlockInput.ofImage image nblocks) () = .ok (some avdp, ())) {fuel : Nat}
    {r : Option VolumeDescriptorSet}
    (h : udfReadVds (BlockInput.ofImage image nblocks) fuel partNumber () = .ok (r, ())) :
    PointersEnd image partNumber avdp := by
  rw [udfReadVds, Proc.bind_of_ok ha] at h
  obtain ⟨⟨m, vds⟩, ⟨⟩, hmain, h⟩ := Proc.bind_eq_ok.mp h
  obtain ⟨n, hm, hend⟩ := ends_of_searchVds _ _ _ _ not_found_none hmain
  simp only at hm hend
  refine ⟨(ends_iff_noReturn found_mono).mp ⟨n, by rwa [← hm]⟩, fun hall k hk => ?_⟩
  have hmf : m.haveAll = false := by rw [hm]; exact hall n
  simp only [hmf] at h
  obtain ⟨⟨m', vds'⟩, ⟨⟩, hres, h⟩ := Proc.bind_eq_ok.mp h
  obtain ⟨n', hm', hend'⟩ := ends_of_searchVds _ _ _ _ (not_found hmf) hres
  have hn : orbit (extentPointer image) avdp.mvds n = none := hend.resolve_right (not_found hmf)
  rw [gather_ends hk hn, ← hm]
  exact (ends_iff_noReturn found_mono).mp ⟨n', by rwa [← hm']⟩

theorem returns_of_pointersEnd {avdp : AnchorVolumeDescriptor}
    (ha : readAvdp (BlockInput.ofImage image nblocks) () = .ok (some avdp, ()))
    (hc : PointersEnd image partNumber avdp) :
    ∃ fuel r, udfReadVds (BlockInput.ofImage image nblocks) fuel partNumber () = .ok (r, ()) := by
  obtain ⟨n, hn⟩ := (ends_iff_noReturn found_mono).mpr hc.main
  by_cases hall : ∀ n, (gather (extentPointer image) (extentKinds image partNumber) avdp.mvds
      VdsMask.none n).haveAll = false
  · -- the main sequence lacks something: the fuel is that of the longer walk
    have hend := hn.resolve_right (not_found (hall n))
    obtain ⟨n', hn'⟩ := (ends_iff_noReturn found_mono).mpr (hc.reserve hall n hend)
    have hmax := orbit_none hend (Nat.le_max_left n n')
    obtain ⟨⟨m, vds⟩, hmain⟩ := searchVds_of_ends image nblocks (max n n') avdp.mvds
      VdsMask.none .zero not_found_none (.inl hmax)
    obtain ⟨k, hm, hk⟩ := ends_of_searchVds _ _ _ _ not_found_none hmain
    simp only at hm hk
    have hmf : m.haveAll = false := by rw [hm]; exact hall k
    have hme : m = gather (extentPointer image) (extentKinds image partNumber) avdp.mvds
        VdsMask.none n := by rw [hm]; exact gather_ends (hk.resolve_right (not_found hmf)) hend
    rw [← hme] at hn'
    obtain ⟨⟨m', vds'⟩, hres⟩ := searchVds_of_ends image nblocks (max n n') avdp.rvds m vds
      (not_found hmf) (hn'.imp (fun h => orbit_none h (Nat.le_max_right n n'))
        fun h => found_mono _ _ (gather_mono (Nat.le_max_right n n')) h)
    refine ⟨max n n', ?_⟩
    rw [udfReadVds, Proc.bind_of_ok ha]
    simp only [Proc.bind_of_ok hmain, hmf]
    rw [if_neg (by simp), Proc.bind_of_ok hres]
    split <;> exact ⟨_, rfl⟩
  · push Not at hall
    obtain ⟨k, hk⟩ := hall
    obtain ⟨⟨m, vds⟩, hmain⟩ := searchVds_of_ends image nblocks n avdp.mvds VdsMask.none .zero
      not_found_none hn
    obtain ⟨k', hm, hk'⟩ := ends_of_searchVds _ _ _ _ not_found_none hmain
    simp only at hm hk'
    have hmt : m.haveAll = true := by
      rw [hm] at hk' ⊢
      exact searchEnd_haveAll hk' (by simpa using hk)
    refine ⟨n, some vds, ?_⟩
    rw [udfReadVds, Proc.bind_of_ok ha]
    simp only [Proc.bind_of_ok hmain, hmt, if_true]
    rfl

/-- `udf_read_vds` returns exactly if following the pointers ends. -/
theorem udfReadVds_ends_iff (image : Image) (nblocks : Option UInt32) (partNumber : Int) :
    (∃ fuel r, udfReadVds (BlockInput.ofImage image nblocks) fuel partNumber () = .ok (r, ())) ↔
      ∀ avdp, readAvdp (BlockInput.ofImage image nblocks) () = .ok (some avdp, ()) →
        PointersEnd image partNumber avdp := by
  constructor
  · rintro ⟨fuel, r, h⟩ avdp ha
    exact pointersEnd_of_returns ha h
  · intro h
    obtain ⟨r, hr⟩ := readAvdp_ofImage image nblocks
    cases r with
    | none =>
      refine ⟨0, none, ?_⟩
      rw [udfReadVds, Proc.bind_of_ok hr]
      rfl
    | some avdp => exact returns_of_pointersEnd hr (h avdp hr)

end

/-! ## A pointer to its own extent -/

/-- The anchor at block 256 names the extent of block 32, which points to itself. -/
def anchorBlock : Nat → UInt8
  | 0 => 2 | 4 => 2 | 17 => 8 | 20 => 32 | _ => 0

def pointerBlock : Nat → UInt8
  | 0 => 3 | 4 => 3 | 21 => 8 | 24 => 32 | _ => 0

def pointerCycle : Image := fun lba =>
  if lba = 256 then some anchorBlock else if lba = 32 then some pointerBlock else none

theorem pointerCycle_anchor (nblocks : Option UInt32) :
    readAvdp (BlockInput.ofImage pointerCycle nblocks) () =
      .ok (some ⟨⟨32, 2048⟩, ⟨0, 0⟩⟩, ()) := by
  have ht : imageTag pointerCycle 256 = (.anchorVolumeDescriptorPointer, blockBytes anchorBlock) := by
    simp only [imageTag, pointerCycle, if_true, decodeDescriptorTag_block]
    rw [if_neg (by decide)]
    rfl
  have ha : decodeAvdp (blockBytes anchorBlock) = .ok ⟨⟨32, 2048⟩, ⟨0, 0⟩⟩ := by
    simp (disch := decide) only [decodeAvdp, decodeExtentAd, getU32, getU16, getU8, byteAt_block,
      Res.ok_bind, Res.pure_def]
    rfl
  rw [readAvdp, Proc.bind_of_ok (readDescriptorBlock_ofImage 256)]
  simp only [ht, if_true, ha]
  rfl

theorem pointerCycle_32 (partNumber : Int) :
    extentPointer pointerCycle ⟨32, 2048⟩ = some ⟨32, 2048⟩ ∧
      extentKinds pointerCycle partNumber ⟨32, 2048⟩ = VdsMask.none := by
  have ht : imageTag pointerCycle 32 = (.volumeDescriptorPointer, blockBytes pointerBlock) := by
    simp only [imageTag, pointerCycle, show ¬ (32 : UInt32) = 256 by decide, if_false, if_true,
      decodeDescriptorTag_block]
    rw [if_neg (by decide)]
    rfl
  have hp : decodeVdp (blockBytes pointerBlock) = .ok ⟨32, 2048⟩ := by
    simp (disch := decide) only [decodeVdp, decodeExtentAd, getU32, getU16, getU8, byteAt_block,
      Res.ok_bind, Res.pure_def]
    rfl
  have hn : extentBlocks ⟨32, 2048⟩ = 1 := by decide
  constructor
  · rw [extentPointer, hn, pointerFrom, ht]
    simp only [if_true, hp]
    rfl
  · rw [extentKinds, hn, kindsFrom, ht]
    simp

/-- On that image the search goes on for ever. -/
theorem udfReadVds_diverges :
    ¬ ∃ fuel r, udfReadVds (BlockInput.ofImage pointerCycle none) fuel partitionFirst () =
      .ok (r, ()) := by
  rintro ⟨fuel, r, h⟩
  have hc := (pointersEnd_of_returns (pointerCycle_anchor none) h).main
  obtain ⟨hp, hk⟩ := pointerCycle_32 partitionFirst
  have hfound := hc 0 1 (by omega) (by simp [orbit]) (by simp [orbit, hp])
  simp only [gather, orbit, hk, sup_none] at hfound
  exact not_found_none hfound

end UdfRead
