import UdfRead.PartitionMaps

/-!
# UdfRead.MetadataMaps

The metadata partition of a parsed partition map table. All maps write the same structure, and a
type 1 map sets the number of partitions back, so the table says which metadata partition is mapped
only under a condition on the last metadata map (`metadataPartition_iff`).
-/

namespace UdfRead

open CModel

/-- A partition that is not set. -/
def Partition.zero : Partition where
  number := 0
  lba := 0
  mirrorLba := 0

/-- The two locations of a partition. -/
def Partition.locations (p : Partition) : UInt32 × UInt32 := (p.lba, p.mirrorLba)

/-- The file entries of the metadata map give a location. -/
def Usable (image : Image) (vds : VolumeDescriptorSet) (map : Nat) : Prop :=
  IsMetadataMap vds.lvd map ∧ (resolveMap image vds map .zero).lba ≠ 0

/-- What the metadata maps among the maps leave in the structure. -/
def metadataLeft (image : Image) (vds : VolumeDescriptorSet) (maps : List (Nat × Nat))
    (p : Partition) : Partition :=
  maps.foldl (fun p m => if IsMetadataMap vds.lvd m.2 then resolveMap image vds m.2 p else p) p

section

variable {image : Image} {nblocks : Option UInt32} {vds : VolumeDescriptorSet} {map : Nat}
  {maps after : List (Nat × Nat)} {p q : Partition} {state : UdfPartitions × Nat}

/-! ## One map -/

theorem setLocation_locations (pd : PartitionDescriptor) (entry : Option (UInt8 × LongAd))
    (h : p.locations = q.locations) :
    (setLocation pd entry p).locations = (setLocation pd entry q).locations := by
  obtain ⟨hlba, hmirror⟩ := Prod.mk.inj h
  unfold setLocation Partition.locations
  cases entry with
  | none => exact h
  | some e =>
    simp only
    split
    · simp only [hmirror]
    · split
      · simp only [hlba]
      · exact h

theorem resolveMap_locations (image : Image) (vds : VolumeDescriptorSet) (map : Nat)
    (h : p.locations = q.locations) :
    (resolveMap image vds map p).locations = (resolveMap image vds map q).locations := by
  have hset := setLocation_locations vds.pd (metadataEntry image vds.pd (mirrorBlock vds.lvd map))
    (setLocation_locations vds.pd (metadataEntry image vds.pd (metadataBlock vds.lvd map)) h)
  obtain ⟨hlba, hmirror⟩ := Prod.mk.inj hset
  unfold resolveMap useMirror
  rw [hlba, hmirror]
  split
  · rfl
  · exact hset

/-- A map that is resolved to no location leaves none. -/
theorem resolveMap_zero (h : (resolveMap image vds map p).lba = 0) :
    (resolveMap image vds map p).locations = (0, 0) := by
  unfold resolveMap useMirror at h ⊢
  split
  · rename_i hmirror
    rw [if_pos hmirror] at h
    exact absurd h hmirror.2
  · rename_i hmirror
    rw [if_neg hmirror] at h
    push Not at hmirror
    exact Prod.ext h (hmirror h)

/-- What a map does: a metadata map resolves its partition, a type 1 map may set the number of
partitions, and nothing else changes them. -/
theorem takeMap_cases (image : Image) (vds : VolumeDescriptorSet) (state : UdfPartitions × Nat)
    (m : Nat × Nat) :
    (IsMetadataMap vds.lvd m.2 ∧ (takeMap image vds state m).2 = state.2 ∧
      (takeMap image vds state m).1.p1.locations =
        (resolveMap image vds m.2 state.1.p1).locations ∧
      ((resolveMap image vds m.2 state.1.p1).lba = 0 →
        (takeMap image vds state m).1.numPartition = state.1.numPartition) ∧
      ((resolveMap image vds m.2 state.1.p1).lba ≠ 0 →
        (takeMap image vds state m).1.numPartition = 2 ∧
        (takeMap image vds state m).1.p1.number = UInt16.ofNat m.1)) ∨
    (¬ IsMetadataMap vds.lvd m.2 ∧ (takeMap image vds state m).1.p1 = state.1.p1 ∧
      ((takeMap image vds state m = state ∧
          (state.2 ≠ 0 ∨ ¬ RefersTo vds.lvd vds.pd.number m.2)) ∨
        (state.2 = 0 ∧ (takeMap image vds state m).2 = 1 ∧
          (takeMap image vds state m).1.numPartition = 1))) := by
  obtain ⟨part, numType1⟩ := state
  obtain ⟨i, map⟩ := m
  unfold takeMap
  simp only
  by_cases h1 : vds.lvd.mapType map = 1
  · have hmeta : ¬ IsMetadataMap vds.lvd map := fun h => by
      have := h.1
      omega
    rw [if_pos h1]
    refine .inr ⟨hmeta, ?_⟩
    split
    · rename_i hr
      exact ⟨rfl, .inr ⟨hr.1, rfl, rfl⟩⟩
    · rename_i hr
      refine ⟨rfl, .inl ⟨rfl, ?_⟩⟩
      by_cases hn : numType1 = 0
      · exact .inr fun h => hr ⟨hn, h⟩
      · exact .inl hn
  · rw [if_neg h1]
    by_cases hmeta : IsMetadataMap vds.lvd map
    · rw [if_pos hmeta]
      refine .inl ⟨hmeta, ?_⟩
      split
      · rename_i hzero
        exact ⟨rfl, rfl, fun _ => rfl, fun h => absurd hzero h⟩
      · rename_i hset
        exact ⟨rfl, rfl, fun h => absurd h hset, fun _ => ⟨rfl, rfl⟩⟩
    · rw [if_neg hmeta]
      exact .inr ⟨hmeta, rfl, .inl ⟨rfl, .inr fun h => h1 h.1⟩⟩

/-! ## All maps -/

theorem foldl_locations (image : Image) (vds : VolumeDescriptorSet) (maps : List (Nat × Nat))
    (state : UdfPartitions × Nat)
    (h : state.1.p1.locations = p.locations) :
    (maps.foldl (takeMap image vds) state).1.p1.locations =
      (metadataLeft image vds maps p).locations := by
  unfold metadataLeft
  induction maps generalizing state p with
  | nil => exact h
  | cons m maps ih =>
    rw [List.foldl_cons, List.foldl_cons]
    rcases takeMap_cases image vds state m with ⟨hmeta, -, hloc, -⟩ |
      ⟨hmeta, hp1, -⟩
    · rw [if_pos hmeta]
      exact ih _ (hloc.trans (resolveMap_locations _ _ _ h))
    · rw [if_neg hmeta]
      exact ih _ (by rw [hp1]; exact h)

/-- Behind the last metadata map the partition stays, and only the first type 1 map changes the
number of partitions. -/
theorem foldl_after (image : Image) (h : ∀ m ∈ after, ¬ IsMetadataMap vds.lvd m.2)
    (state : UdfPartitions × Nat) :
    (after.foldl (takeMap image vds) state).1.p1 = state.1.p1 ∧
      (state.2 ≠ 0 → (after.foldl (takeMap image vds) state) = state) ∧
      (state.2 = 0 → (after.foldl (takeMap image vds) state).2 ≠ 0 →
        (after.foldl (takeMap image vds) state).1.numPartition = 1) := by
  induction after generalizing state with
  | nil => exact ⟨rfl, fun _ => rfl, fun h h' => absurd h h'⟩
  | cons m after ih =>
    rw [List.foldl_cons]
    obtain ⟨hp1, hstay, hone⟩ := ih (fun m' hm' => h m' (List.mem_cons_of_mem _ hm'))
      (takeMap image vds state m)
    rcases takeMap_cases image vds state m with ⟨hmeta, -⟩ |
      ⟨-, hp1', ⟨hsame, -⟩ | ⟨h0, h1, hnum⟩⟩
    · exact absurd hmeta (h m List.mem_cons_self)
    · rw [hsame] at hp1 hstay hone ⊢
      exact ⟨hp1, hstay, hone⟩
    · refine ⟨hp1.trans hp1', fun hn => absurd h0 hn, fun _ _ => ?_⟩
      rw [hstay (by rw [h1]; decide), hnum]

/-- The number of partitions follows the type 1 map that was taken. -/
theorem foldl_count (maps : List (Nat × Nat)) (state : UdfPartitions × Nat)
    (h : state.2 ≠ 0 → state.1.numPartition = 1 ∨ state.1.numPartition = 2)
    (hn : (maps.foldl (takeMap image vds) state).2 ≠ 0) :
    (maps.foldl (takeMap image vds) state).1.numPartition = 1 ∨
      (maps.foldl (takeMap image vds) state).1.numPartition = 2 := by
  induction maps generalizing state with
  | nil => exact h hn
  | cons m maps ih =>
    rw [List.foldl_cons] at hn ⊢
    refine ih _ ?_ hn
    rcases takeMap_cases image vds state m with ⟨-, hcount, -, hzero, hset⟩ |
      ⟨-, -, ⟨hsame, -⟩ | ⟨-, -, hnum⟩⟩
    · intro hstate
      by_cases hlba : (resolveMap image vds m.2 state.1.p1).lba = 0
      · rw [hzero hlba]
        exact h (by rwa [hcount] at hstate)
      · exact .inr (hset hlba).1
    · rw [hsame]
      exact h
    · exact fun _ => .inl hnum

/-- A type 1 map was taken exactly if one of the maps refers to the partition. -/
theorem foldl_taken (image : Image) (vds : VolumeDescriptorSet) (maps : List (Nat × Nat))
    (state : UdfPartitions × Nat) :
    (maps.foldl (takeMap image vds) state).2 ≠ 0 ↔
      state.2 ≠ 0 ∨ ∃ m ∈ maps, RefersTo vds.lvd vds.pd.number m.2 := by
  induction maps generalizing state with
  | nil => simp
  | cons m maps ih =>
    rw [List.foldl_cons, ih]
    simp only [List.mem_cons, exists_eq_or_imp]
    rcases takeMap_p0 image vds state m with hsame | ⟨h0, hr, h1, -⟩ |
      ⟨hr, hcount, -⟩
    · rw [hsame]
      by_cases hr : RefersTo vds.lvd vds.pd.number m.2
      · by_cases h0 : state.2 = 0
        · have h1 : (takeMap image vds state m).2 = 1 := by
            unfold takeMap
            simp [hr.1, hr, h0]
          rw [hsame, h0] at h1
          cases h1
        · simp [h0]
      · simp [hr]
    · simp [h1, hr]
    · rw [hcount]
      simp [hr]

/-- Where no map is usable, nothing is mapped. -/
theorem foldl_unusable (image : Image) (vds : VolumeDescriptorSet) (maps : List (Nat × Nat))
    (state : UdfPartitions × Nat)
    (h : ∀ m ∈ maps, ¬ Usable image vds m.2) (hloc : state.1.p1.locations = (0, 0))
    (hcount : state.1.numPartition ≠ 2) :
    (maps.foldl (takeMap image vds) state).1.numPartition ≠ 2 := by
  induction maps generalizing state with
  | nil => exact hcount
  | cons m maps ih =>
    rw [List.foldl_cons]
    refine ih _ (fun m' hm' => h m' (List.mem_cons_of_mem _ hm')) ?_ ?_
    · rcases takeMap_cases image vds state m with ⟨hmeta, -, hl, -⟩ |
        ⟨-, hp1, -⟩
      · rw [hl, resolveMap_locations _ _ _ (q := .zero) hloc]
        refine resolveMap_zero ?_
        by_contra hc
        exact h m List.mem_cons_self ⟨hmeta, hc⟩
      · rwa [hp1]
    · rcases takeMap_cases image vds state m with ⟨hmeta, -, -, hzero, -⟩ |
        ⟨-, -, ⟨hsame, -⟩ | ⟨-, -, hnum⟩⟩
      · have hlba : (resolveMap image vds m.2 state.1.p1).lba = 0 := by
          have hl := resolveMap_locations image vds m.2 (q := .zero) hloc
          by_contra hc
          exact h m List.mem_cons_self ⟨hmeta, fun h0 => hc ((congrArg Prod.fst hl).trans h0)⟩
        rwa [hzero hlba]
      · rwa [hsame]
      · rw [hnum]
        decide

theorem exists_last {α : Type} {P : α → Prop} {l : List α} (h : ∃ x ∈ l, P x) :
    ∃ before x after, l = before ++ x :: after ∧ P x ∧ ∀ y ∈ after, ¬ P y := by
  induction l with
  | nil =>
    obtain ⟨x, hx, -⟩ := h
    cases hx
  | cons y l ih =>
    by_cases hl : ∃ x ∈ l, P x
    · obtain ⟨before, x, after, hl, hx, hafter⟩ := ih hl
      exact ⟨y :: before, x, after, by rw [hl]; rfl, hx, hafter⟩
    · obtain ⟨x, hx, hP⟩ := h
      rcases List.mem_cons.mp hx with rfl | hx
      · exact ⟨[], x, l, rfl, hP, fun z hz hPz => hl ⟨z, hz, hPz⟩⟩
      · exact absurd ⟨x, hx, hP⟩ hl

/-- The table says which metadata partition is mapped. -/
def MetadataMapped (image : Image) (vds : VolumeDescriptorSet) (part : UdfPartitions) : Prop :=
  (part.numPartition = 2 ↔ ∃ m ∈ walkedMaps vds.lvd, Usable image vds m.2) ∧
  (part.numPartition ≠ 2 → part.numPartition = 1) ∧
  (part.numPartition = 2 → ∃ m ∈ walkedMaps vds.lvd, Usable image vds m.2 ∧
    part.p1.number.toNat = m.1 ∧
    part.p1.locations = (resolveMap image vds m.2 .zero).locations)

/-- The last metadata map comes behind a type 1 map of the partition, is usable, and overrides what
the metadata maps before it leave. -/
def LastMapDecides (image : Image) (vds : VolumeDescriptorSet) : Prop :=
  ∃ before m after, walkedMaps vds.lvd = before ++ m :: after ∧
    (∀ m' ∈ after, ¬ IsMetadataMap vds.lvd m'.2) ∧
    (∃ m' ∈ before, RefersTo vds.lvd vds.pd.number m'.2) ∧ Usable image vds m.2 ∧
    (resolveMap image vds m.2 (metadataLeft image vds before .zero)).locations =
      (resolveMap image vds m.2 .zero).locations

theorem walkedMaps_index {m m' : Nat × Nat} (hm : m ∈ walkedMaps vds.lvd)
    (hm' : m' ∈ walkedMaps vds.lvd) (h : m.1 = m'.1) : m = m' := by
  have hsorted : (walkedMaps vds.lvd).Pairwise fun a b => a.1 < b.1 := mapsFrom_sorted (by omega)
  have hnodup : ((walkedMaps vds.lvd).map Prod.fst).Nodup :=
    (List.pairwise_map.mpr hsorted).imp fun hlt => ne_of_lt hlt
  exact List.inj_on_of_nodup_map hnodup hm hm' h

theorem walkedMaps_number {m : Nat × Nat} (hm : m ∈ walkedMaps vds.lvd) :
    (UInt16.ofNat m.1).toNat = m.1 := by
  have hlt : m.1 < 1024 := (mapsFrom_bounds (by omega) m hm).2
  rw [UInt16.toNat_ofNat', Nat.mod_eq_of_lt (by omega)]

/-- The table behind the last metadata map. -/
theorem foldl_split {before after : List (Nat × Nat)} {m : Nat × Nat} {part : UdfPartitions}
    {r : Partition} (hmeta : IsMetadataMap vds.lvd m.2)
    (hafter : ∀ m' ∈ after, ¬ IsMetadataMap vds.lvd m'.2)
    (hn : ((before ++ m :: after).foldl (takeMap image vds) (.zero, 0)).2 ≠ 0)
    (hpart : ((before ++ m :: after).foldl (takeMap image vds) (.zero, 0)).1 = part)
    (hr : resolveMap image vds m.2 (metadataLeft image vds before .zero) = r) :
    part.p1.locations = r.locations ∧
      (r.lba ≠ 0 → part.p1.number = UInt16.ofNat m.1) ∧
      ((¬ ∃ m' ∈ before, RefersTo vds.lvd vds.pd.number m'.2) → part.numPartition = 1) ∧
      (r.lba ≠ 0 → (∃ m' ∈ before, RefersTo vds.lvd vds.pd.number m'.2) →
        part.numPartition = 2) := by
  rw [List.foldl_append, List.foldl_cons] at hn hpart
  have hleft := foldl_locations image vds (p := .zero) before (.zero, 0) rfl
  have htaken := foldl_taken image vds before (.zero, 0)
  have hbefore : (before.foldl (takeMap image vds) (.zero, 0)).2 ≠ 0 ↔
      ∃ m' ∈ before, RefersTo vds.lvd vds.pd.number m'.2 := by
    rw [htaken]
    simp
  generalize before.foldl (takeMap image vds) (.zero, 0) = state at hn hpart hleft hbefore
  obtain ⟨hp1, hstay, hone⟩ := foldl_after image hafter (takeMap image vds state m)
  rw [hpart] at hp1
  rcases takeMap_cases image vds state m with
    ⟨-, hcount, hloc, -, hset⟩ | ⟨hother, -⟩
  · have hlocs : (resolveMap image vds m.2 state.1.p1).locations = r.locations := by
      rw [← hr]
      exact resolveMap_locations _ _ _ hleft
    have hlba : (resolveMap image vds m.2 state.1.p1).lba = r.lba := congrArg Prod.fst hlocs
    rw [hlba] at hset
    refine ⟨by rw [hp1, hloc, hlocs], fun hne => ?_, fun hno => ?_, fun hne href => ?_⟩
    · rw [hp1]
      exact (hset hne).2
    · have h0 : state.2 = 0 := by
        by_contra hc
        exact hno (hbefore.mp hc)
      rw [← hpart]
      exact hone (by rw [hcount, h0]) hn
    · rw [← hpart, hstay (by rw [hcount]; exact hbefore.mpr href)]
      exact (hset hne).1
  · exact absurd hmeta hother

end

/-! ## A metadata map in front of the type 1 map -/

/-- Only block 300 can be read: a metadata file at block 5 of the partition. -/
def metadataImage : Image := fun lba =>
  if lba = 300 then
    some (withField 20 [4] (withField 27 [250] (withField 212 [8] (withField 217 [8, 0, 0, 5]
      (tagged 266)))))
  else none

def type1Map : Bytes := [1, 6, 1, 0, 0, 0]

def metadataMap : Bytes := [2, 64, 0, 0, 0] ++ metaDomainId ++ List.replicate 36 0

/-- A volume with two partition maps. -/
def twoMaps (first second : Bytes) : VolumeDescriptorSet where
  pd := { number := 0, startBlock := 300, numBlocks := 0 }
  pvd := VolumeDescriptorSet.zero.pvd
  lvd := { VolumeDescriptorSet.zero.lvd with
    numPartitionMaps := 2
    partitionMapLableLength := 70
    partitionMapTable := (first ++ second ++ List.replicate 2048 0).take 2048
    tableSize := by
      rw [List.length_take, List.length_append, List.length_replicate]
      exact Nat.min_eq_left (Nat.le_add_left _ _) }

theorem twoMaps_metadata_last :
    udfParsePartitionMaps (.ofImage metadataImage none) (twoMaps type1Map metadataMap) .zero () =
      .ok ((true, { numPartition := 2, p0 := { number := 0, lba := 300, mirrorLba := 0 },
                    p1 := { number := 1, lba := 305, mirrorLba := 0 } }), ()) := by
  decide +kernel

theorem twoMaps_metadata_first :
    udfParsePartitionMaps (.ofImage metadataImage none) (twoMaps metadataMap type1Map) .zero () =
      .ok ((true, { numPartition := 1, p0 := { number := 1, lba := 300, mirrorLba := 0 },
                    p1 := { number := 0, lba := 305, mirrorLba := 0 } }), ()) := by
  decide +kernel

instance (image : Image) (vds : VolumeDescriptorSet) (map : Nat) :
    Decidable (Usable image vds map) := inferInstanceAs (Decidable (_ ∧ _))

end UdfRead
