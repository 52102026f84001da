import UdfRead.Descriptors
import UdfRead.VdsScan

/-!
# UdfRead.PartitionMaps

The partition map table. The maps in front of the first malformed one are a list (`walkedMaps`), and
parsing the table takes them one after the other (`udfParsePartitionMaps_ofImage`). The partition
that is opened is the selected one, at the first type 1 map that refers to it
(`selectedPartition_opened`).
-/

namespace UdfRead

open CModel

/-! ## The maps of a table -/

/-- The end of the table, or of the part of it that is kept. -/
def LogicalVolumeDescriptor.tableEnd (lvd : LogicalVolumeDescriptor) : Nat :=
  min lvd.partitionMapLableLength.toNat 2048

def LogicalVolumeDescriptor.mapType (lvd : LogicalVolumeDescriptor) (map : Nat) : Nat :=
  leVal lvd.partitionMapTable map 1

def LogicalVolumeDescriptor.mapLength (lvd : LogicalVolumeDescriptor) (map : Nat) : Nat :=
  leVal lvd.partitionMapTable (map + 1) 1

/-- The map at byte `map` of the table has a valid length and lies in the table. -/
def WellFormedMap (lvd : LogicalVolumeDescriptor) (map : Nat) : Prop :=
  2 ≤ lvd.mapLength map ∧ map + lvd.mapLength map ≤ lvd.tableEnd ∧
    (lvd.mapType map = 1 → lvd.mapLength map = 6) ∧
    (lvd.mapType map = 2 → lvd.mapLength map = 64)

instance (lvd : LogicalVolumeDescriptor) (map : Nat) : Decidable (WellFormedMap lvd map) :=
  inferInstanceAs (Decidable (_ ∧ _))

/-- The maps from number `i` at byte `map` on, up to a malformed one: their numbers and places. -/
def mapsFrom (lvd : LogicalVolumeDescriptor) : (fuel i map : Nat) → List (Nat × Nat)
  | 0, _, _ => []
  | fuel + 1, i, map =>
    if (i < lvd.numPartitionMaps.toNat ∧ map + 2 < lvd.tableEnd) ∧ WellFormedMap lvd map then
      (i, map) :: mapsFrom lvd fuel (i + 1) (map + lvd.mapLength map)
    else []

/-- The maps in front of the first malformed one. -/
def walkedMaps (lvd : LogicalVolumeDescriptor) : List (Nat × Nat) := mapsFrom lvd 1024 0 0

/-- A type 1 map that refers to the partition. -/
def RefersTo (lvd : LogicalVolumeDescriptor) (number : UInt16) (map : Nat) : Prop :=
  lvd.mapType map = 1 ∧ leVal lvd.partitionMapTable (map + 4) 2 = number.toNat

instance (lvd : LogicalVolumeDescriptor) (number : UInt16) (map : Nat) :
    Decidable (RefersTo lvd number map) := inferInstanceAs (Decidable (_ ∧ _))

/-- A type 2 map of a metadata partition. -/
def IsMetadataMap (lvd : LogicalVolumeDescriptor) (map : Nat) : Prop :=
  lvd.mapType map = 2 ∧ (lvd.partitionMapTable.drop (map + 5)).take 23 = metaDomainId

instance (lvd : LogicalVolumeDescriptor) (map : Nat) : Decidable (IsMetadataMap lvd map) :=
  inferInstanceAs (Decidable (_ ∧ _))

/-- The block addresses of the metadata file and of its mirror in a metadata map. -/
def metadataBlock (lvd : LogicalVolumeDescriptor) (map : Nat) : UInt32 :=
  UInt32.ofNat (leVal lvd.partitionMapTable (map + 40) 4)

def mirrorBlock (lvd : LogicalVolumeDescriptor) (map : Nat) : UInt32 :=
  UInt32.ofNat (leVal lvd.partitionMapTable (map + 44) 4)

/-! ## The metadata file -/

/-- The first allocation descriptor of the metadata file entry at block `lba` of the partition, with
the type of the file. -/
def metadataEntry (image : Image) (pd : PartitionDescriptor) (lba : UInt32) :
    Option (UInt8 × LongAd) :=
  let (tag, buf) := imageTag image (pd.startBlock + lba)
  if tag ≠ .extendedFileEntry then none
  else
    match decodeExtFileEntry buf 2048 pd.number with
    | .ok (some fe) =>
      match fe.u with
      | .ads _ (ad :: _) => some (fe.fileType, ad)
      | _ => none
    | _ => none

/-- What the file entry at block `lba` sets in the table. -/
def setLocation (pd : PartitionDescriptor) (entry : Option (UInt8 × LongAd)) (p : Partition) :
    Partition :=
  match entry with
  | none => p
  | some (fileType, ad) =>
    if fileType = fileTypeMetadata then { p with lba := pd.startBlock + ad.lba }
    else if fileType = fileTypeMetadataMirror then { p with mirrorLba := pd.startBlock + ad.lba }
    else p

/-- The mirror takes the place of a location that could not be read. -/
def useMirror (p : Partition) : Partition :=
  if p.lba = 0 ∧ p.mirrorLba ≠ 0 then { p with lba := p.mirrorLba, mirrorLba := 0 } else p

/-- The metadata partition behind the map at byte `map`. -/
def resolveMap (image : Image) (vds : VolumeDescriptorSet) (map : Nat) (p : Partition) : Partition :=
  useMirror (setLocation vds.pd (metadataEntry image vds.pd (mirrorBlock vds.lvd map))
    (setLocation vds.pd (metadataEntry image vds.pd (metadataBlock vds.lvd map)) p))

/-- One turn of the loop. -/
def takeMap (image : Image) (vds : VolumeDescriptorSet) (state : UdfPartitions × Nat)
    (m : Nat × Nat) : UdfPartitions × Nat :=
  let (part, numType1) := state
  let (i, map) := m
  if vds.lvd.mapType map = 1 then
    if numType1 = 0 ∧ RefersTo vds.lvd vds.pd.number map then
      ({ part with
        numPartition := 1
        p0 := { number := UInt16.ofNat i, lba := vds.pd.startBlock, mirrorLba := 0 } }, 1)
    else (part, numType1)
  else if IsMetadataMap vds.lvd map then
    let p1 := resolveMap image vds map part.p1
    if p1.lba = 0 then ({ part with p1 }, numType1)
    else ({ part with numPartition := 2, p1 := { p1 with number := UInt16.ofNat i } }, numType1)
  else (part, numType1)

section

variable {image : Image} {nblocks : Option UInt32} {vds : VolumeDescriptorSet}
  {part : UdfPartitions} {pd : PartitionDescriptor}

theorem mapMetadataCopy_ofImage (part : UdfPartitions) (lba : UInt32) :
    mapMetadataCopy (.ofImage image nblocks) part lba pd () =
      .ok ({ part with p1 := setLocation pd (metadataEntry image pd lba) part.p1 }, ()) := by
  unfold mapMetadataCopy metadataEntry
  have hlen := imageTag_length image (pd.startBlock + lba)
  rw [Proc.bind_of_ok (readDescriptorBlock_ofImage _)]
  cases htag : imageTag image (pd.startBlock + lba) with
  | mk tag buf =>
  rw [htag] at hlen
  simp only at hlen ⊢
  by_cases hext : tag = .extendedFileEntry
  · obtain ⟨entry, hentry⟩ : ∃ entry, decodeExtFileEntry buf 2048 pd.number = .ok entry :=
      ⟨_, decodeExtFileEntry_eq (by rw [hlen (by rw [hext]; simp)])⟩
    simp only [hext, ne_eq, not_true, if_false, hentry]
    rw [Proc.ofRes_bind rfl]
    cases entry with
    | none => rfl
    | some fe =>
      simp only
      cases hu : fe.u with
      | data content => rfl
      | ads t l =>
        cases l with
        | nil => rfl
        | cons ad rest =>
          simp only [setLocation]
          split
          · rfl
          · split
            · rfl
            · rfl
  · simp only [hext, ne_eq, not_false_iff, if_true]
    rfl

theorem mapMetadataPartition_ofImage (image : Image) (nblocks : Option UInt32)
    (vds : VolumeDescriptorSet) (part : UdfPartitions) (map : Nat) :
    mapMetadataPartition (.ofImage image nblocks) part (metadataBlock vds.lvd map)
        (mirrorBlock vds.lvd map) vds.pd () =
      .ok ((decide ((resolveMap image vds map part.p1).lba ≠ 0),
        { part with p1 := resolveMap image vds map part.p1 }), ()) := by
  unfold mapMetadataPartition
  rw [Proc.bind_of_ok (mapMetadataCopy_ofImage _ _), Proc.bind_of_ok (mapMetadataCopy_ofImage _ _)]
  unfold resolveMap useMirror
  simp only
  split
  · rfl
  · rfl

theorem checkDomainIdentifier_metadata {eid : EntityId} {p : Bytes} {i : Nat}
    (h : decodeEntityId p i = .ok eid) :
    checkDomainIdentifier eid metaDomainId = decide ((p.drop (i + 1)).take 23 = metaDomainId) := by
  obtain ⟨id, hid, h⟩ := Res.bind_eq_ok.mp h
  obtain ⟨suffix, -, h⟩ := Res.bind_eq_ok.mp h
  cases h
  unfold slice at hid
  split at hid
  · cases hid
    unfold checkDomainIdentifier
    rw [List.take_of_length_le (by rw [List.length_take]; exact Nat.min_le_left _ _)]
    exact Bool.beq_eq_decide_eq _ _
  · cases hid

theorem mapType_eq (lvd : LogicalVolumeDescriptor) (map : Nat) (k : UInt32) :
    UInt32.ofNat (leVal lvd.partitionMapTable map 1) = k ↔ lvd.mapType map = k.toNat := by
  have hlt := leVal_lt lvd.partitionMapTable map 1
  rw [← UInt32.toNat_inj, UInt32.toNat_ofNat', Nat.mod_eq_of_lt (by omega)]
  rfl

/-- A well-formed map is taken; a malformed one ends the loop. -/
theorem parsePartitionMap_ofImage {i map : Nat} (part : UdfPartitions) (numType1 : Nat)
    (hlen : 2 ≤ vds.lvd.mapLength map) (hend : map + vds.lvd.mapLength map ≤ vds.lvd.tableEnd) :
    parsePartitionMap (.ofImage image nblocks) vds i map (vds.lvd.mapLength map) part numType1 () =
      .ok (if WellFormedMap vds.lvd map then some (takeMap image vds (part, numType1) (i, map))
        else none, ()) := by
  have hsize := vds.lvd.tableSize
  have htable : vds.lvd.tableEnd ≤ 2048 := Nat.min_le_right _ _
  have hone := mapType_eq vds.lvd map 1
  have htwo := mapType_eq vds.lvd map 2
  unfold parsePartitionMap
  simp only
  rw [Proc.ofRes_bind (getU8_eq (by omega))]
  by_cases h1 : vds.lvd.mapType map = 1
  · rw [if_pos (hone.mpr h1)]
    by_cases h6 : vds.lvd.mapLength map = 6
    · have hwell : WellFormedMap vds.lvd map := ⟨hlen, hend, fun _ => h6, fun h => by omega⟩
      rw [if_neg (not_not_intro h6), if_pos hwell, Proc.ofRes_bind (getU16_eq (by omega))]
      have href : UInt32.ofNat (leVal vds.lvd.partitionMapTable (map + 4) 2) =
          vds.pd.number.toUInt32 ↔ RefersTo vds.lvd vds.pd.number map := by
        have hlt := leVal_lt vds.lvd.partitionMapTable (map + 4) 2
        rw [← UInt32.toNat_inj, UInt32.toNat_ofNat', Nat.mod_eq_of_lt (by omega),
          UInt16.toNat_toUInt32]
        exact ⟨fun h => ⟨h1, h⟩, fun h => h.2⟩
      unfold takeMap
      simp only [if_pos h1]
      by_cases hn : numType1 = 0
      · subst hn
        simp only [ne_eq, not_true, if_false, href, true_and]
        by_cases hr : RefersTo vds.lvd vds.pd.number map
        · rw [if_neg (not_not_intro hr), if_pos hr]
          rfl
        · rw [if_pos hr, if_neg hr]
          rfl
      · rw [if_pos hn, if_neg (fun h => hn h.1)]
        rfl
    · have hwell : ¬ WellFormedMap vds.lvd map := fun h => h6 (h.2.2.1 h1)
      rw [if_pos h6, if_neg hwell]
      rfl
  · rw [if_neg (mt hone.mp h1)]
    by_cases h2 : vds.lvd.mapType map = 2
    · rw [if_pos (htwo.mpr h2)]
      by_cases h64 : vds.lvd.mapLength map = 64
      · have hwell : WellFormedMap vds.lvd map := ⟨hlen, hend, fun h => by omega, fun _ => h64⟩
        obtain ⟨eid, heid⟩ := decodeEntityId_ok (p := vds.lvd.partitionMapTable) (i := map + 4)
          (by omega)
        rw [if_neg (not_not_intro h64), if_pos hwell, Proc.ofRes_bind heid,
          checkDomainIdentifier_metadata heid]
        unfold takeMap
        simp only [if_neg h1]
        by_cases hmeta : IsMetadataMap vds.lvd map
        · rw [if_neg (by simpa using hmeta.2), if_pos hmeta, Proc.ofRes_bind (getU16_eq (by omega)),
            Proc.ofRes_bind (getU32_eq (by omega)), Proc.ofRes_bind (getU32_eq (by omega))]
          have hres := mapMetadataPartition_ofImage image nblocks vds part map
          unfold metadataBlock mirrorBlock at hres
          rw [Proc.bind_of_ok hres]
          simp only
          by_cases hzero : (resolveMap image vds map part.p1).lba = 0
          · simp only [hzero, ne_eq, not_true, decide_false, Bool.not_false, if_true]
            rfl
          · simp only [hzero, ne_eq, not_false_iff, decide_true, Bool.not_true, if_false]
            rfl
        · have hother : ¬ (vds.lvd.partitionMapTable.drop (map + 5)).take 23 = metaDomainId :=
            fun h => hmeta ⟨h2, h⟩
          rw [if_pos (by simpa using hother), if_neg hmeta]
          rfl
      · have hwell : ¬ WellFormedMap vds.lvd map := fun h => h64 (h.2.2.2 h2)
        rw [if_pos h64, if_neg hwell]
        rfl
    · have hwell : WellFormedMap vds.lvd map :=
        ⟨hlen, hend, fun h => absurd h h1, fun h => absurd h h2⟩
      rw [if_neg (mt htwo.mp h2), if_pos hwell]
      unfold takeMap
      simp only [if_neg h1, if_neg (show ¬ IsMetadataMap vds.lvd map from fun h => h2 h.1)]
      rfl

theorem parsePartitionMapsLoop_ofImage {fuel : Nat} (i map : Nat) (state : UdfPartitions × Nat)
    (hfuel : 1 ≤ fuel) (hmap : 2048 ≤ 2 * fuel + map) :
    parsePartitionMapsLoop (.ofImage image nblocks) vds fuel i map state.1 state.2 () =
      .ok ((mapsFrom vds.lvd fuel i map).foldl (takeMap image vds) state, ()) := by
  induction fuel generalizing i map state with
  | zero => omega
  | succ fuel ih =>
    have hsize := vds.lvd.tableSize
    have htable : vds.lvd.tableEnd ≤ 2048 := Nat.min_le_right _ _
    have hend : min vds.lvd.partitionMapLableLength.toNat 2048 = vds.lvd.tableEnd := rfl
    have hlt := leVal_lt vds.lvd.partitionMapTable (map + 1) 1
    have hlen : (UInt32.ofNat (leVal vds.lvd.partitionMapTable (map + 1) 1)).toNat =
        vds.lvd.mapLength map := by
      rw [UInt32.toNat_ofNat', Nat.mod_eq_of_lt (by omega)]
      rfl
    rw [parsePartitionMapsLoop, mapsFrom]
    simp only [hend]
    by_cases hloop : i < vds.lvd.numPartitionMaps.toNat ∧ map + 2 < vds.lvd.tableEnd
    · rw [if_neg (not_not_intro hloop), Proc.ofRes_bind (getU8_eq (by omega))]
      have htwo : UInt32.ofNat (leVal vds.lvd.partitionMapTable (map + 1) 1) < 2 ↔
          vds.lvd.mapLength map < 2 := by
        rw [UInt32.lt_iff_toNat_lt, hlen]
        rfl
      by_cases hshort : vds.lvd.mapLength map < 2
      · rw [if_pos (htwo.mpr hshort), if_neg fun h => absurd h.2.1 (by omega)]
        rfl
      · rw [if_neg (mt htwo.mp hshort), hlen]
        by_cases hover : map + vds.lvd.mapLength map > vds.lvd.tableEnd
        · rw [if_pos hover, if_neg fun h => absurd h.2.2.1 (by omega)]
          rfl
        · rw [if_neg hover, Proc.bind_of_ok
            (parsePartitionMap_ofImage state.1 state.2 (by omega) (by omega))]
          by_cases hwell : WellFormedMap vds.lvd map
          · rw [if_pos hwell, if_pos ⟨hloop, hwell⟩, List.foldl_cons]
            exact ih (i + 1) (map + vds.lvd.mapLength map) _ (by omega) (by omega)
          · rw [if_neg hwell, if_neg fun h => hwell h.2]
            rfl
    · rw [if_pos hloop, if_neg fun h => hloop h.1]
      rfl

/-- Parsing the table takes the maps in front of the first malformed one. -/
theorem udfParsePartitionMaps_ofImage (vds : VolumeDescriptorSet) (part : UdfPartitions) :
    udfParsePartitionMaps (.ofImage image nblocks) vds part () =
      .ok ((decide (((walkedMaps vds.lvd).foldl (takeMap image vds) (part, 0)).2 ≠ 0),
        ((walkedMaps vds.lvd).foldl (takeMap image vds) (part, 0)).1), ()) := by
  unfold udfParsePartitionMaps
  rw [Proc.bind_of_ok (parsePartitionMapsLoop_ofImage 0 0 (part, 0) (by omega) (by omega))]
  rfl

/-! ## The type 1 map -/

theorem takeMap_p0 (image : Image) (vds : VolumeDescriptorSet) (state : UdfPartitions × Nat)
    (m : Nat × Nat) :
    takeMap image vds state m = state ∨
    (state.2 = 0 ∧ RefersTo vds.lvd vds.pd.number m.2 ∧ (takeMap image vds state m).2 = 1 ∧
      (takeMap image vds state m).1.p0 =
        { number := UInt16.ofNat m.1, lba := vds.pd.startBlock, mirrorLba := 0 }) ∨
    (¬ RefersTo vds.lvd vds.pd.number m.2 ∧ (takeMap image vds state m).2 = state.2 ∧
      (takeMap image vds state m).1.p0 = state.1.p0) := by
  obtain ⟨part, numType1⟩ := state
  obtain ⟨i, map⟩ := m
  unfold takeMap
  simp only
  by_cases h1 : vds.lvd.mapType map = 1
  · rw [if_pos h1]
    by_cases hr : numType1 = 0 ∧ RefersTo vds.lvd vds.pd.number map
    · rw [if_pos hr]
      exact .inr (.inl ⟨hr.1, hr.2, rfl, rfl⟩)
    · rw [if_neg hr]
      exact .inl rfl
  · have hr : ¬ RefersTo vds.lvd vds.pd.number map := fun h => h1 h.1
    rw [if_neg h1]
    split
    · split
      · exact .inr (.inr ⟨hr, rfl, rfl⟩)
      · exact .inr (.inr ⟨hr, rfl, rfl⟩)
    · exact .inl rfl

/-- Once a type 1 map is taken, the data partition stays. -/
theorem foldl_p0_taken (maps : List (Nat × Nat)) (state : UdfPartitions × Nat)
    (hn : state.2 ≠ 0) :
    (maps.foldl (takeMap image vds) state).2 ≠ 0 ∧
      (maps.foldl (takeMap image vds) state).1.p0 = state.1.p0 := by
  induction maps generalizing state with
  | nil => exact ⟨hn, rfl⟩
  | cons m maps ih =>
    rw [List.foldl_cons]
    rcases takeMap_p0 image vds state m with hsame | ⟨h0, -⟩ | ⟨-, hnum, hp0⟩
    · rw [hsame]
      exact ih state hn
    · exact absurd h0 hn
    · have hrest := ih (takeMap image vds state m) (by rwa [hnum])
      rwa [hp0] at hrest

/-- The data partition comes from the first type 1 map that refers to it. -/
theorem foldl_p0 (maps : List (Nat × Nat)) (part : UdfPartitions)
    (h : (maps.foldl (takeMap image vds) (part, 0)).2 ≠ 0) :
    ∃ before m after, maps = before ++ m :: after ∧ RefersTo vds.lvd vds.pd.number m.2 ∧
      (∀ m' ∈ before, ¬ RefersTo vds.lvd vds.pd.number m'.2) ∧
      (maps.foldl (takeMap image vds) (part, 0)).1.p0 =
        { number := UInt16.ofNat m.1, lba := vds.pd.startBlock, mirrorLba := 0 } := by
  induction maps generalizing part with
  | nil => exact absurd rfl h
  | cons m maps ih =>
    have hnext : ¬ RefersTo vds.lvd vds.pd.number m.2 →
        (takeMap image vds (part, 0) m).2 = 0 →
        ∃ before m' after, m :: maps = before ++ m' :: after ∧
          RefersTo vds.lvd vds.pd.number m'.2 ∧
          (∀ m'' ∈ before, ¬ RefersTo vds.lvd vds.pd.number m''.2) ∧
          ((m :: maps).foldl (takeMap image vds) (part, 0)).1.p0 =
            { number := UInt16.ofNat m'.1, lba := vds.pd.startBlock, mirrorLba := 0 } := by
      intro hr h0
      have heta : takeMap image vds (part, 0) m = ((takeMap image vds (part, 0) m).1, 0) :=
        Prod.ext rfl h0
      rw [List.foldl_cons, heta] at h
      obtain ⟨before, m', after, hmaps, hrefers, hbefore, hp0⟩ := ih _ h
      refine ⟨m :: before, m', after, by rw [hmaps]; rfl, hrefers, ?_, ?_⟩
      · intro m'' hmem
        rcases List.mem_cons.mp hmem with rfl | hmem
        · exact hr
        · exact hbefore m'' hmem
      · rw [List.foldl_cons, heta]
        exact hp0
    rcases takeMap_p0 image vds (part, 0) m with hsame | ⟨-, hr, h1, hp0⟩ |
      ⟨hr, h0, -⟩
    · by_cases hr : RefersTo vds.lvd vds.pd.number m.2
      · -- a map that refers to the partition is taken
        have h1 : (takeMap image vds (part, 0) m).2 = 1 := by
          unfold takeMap
          simp [hr.1, hr]
        rw [hsame] at h1
        cases h1
      · exact hnext hr (by rw [hsame])
    · refine ⟨[], m, maps, rfl, hr, by simp, ?_⟩
      rw [List.foldl_cons, (foldl_p0_taken maps _ (by rw [h1]; decide)).2, hp0]
    · exact hnext hr h0

theorem mapsFrom_bounds {lvd : LogicalVolumeDescriptor} {fuel i map : Nat} (h : 2 * i ≤ map) :
    ∀ m ∈ mapsFrom lvd fuel i map, i ≤ m.1 ∧ m.1 < 1024 := by
  induction fuel generalizing i map with
  | zero => simp [mapsFrom]
  | succ fuel ih =>
    have htable : lvd.tableEnd ≤ 2048 := Nat.min_le_right _ _
    rw [mapsFrom]
    split
    · rename_i hwalk
      intro m hmem
      have hlen := hwalk.2.1
      rcases List.mem_cons.mp hmem with rfl | hmem
      · have hend := hwalk.1.2
        exact ⟨le_refl _, show i < 1024 by omega⟩
      · have hnext : 2 * (i + 1) ≤ map + lvd.mapLength map := by omega
        have hm := ih hnext m hmem
        omega
    · simp

theorem mapsFrom_sorted {lvd : LogicalVolumeDescriptor} {fuel i map : Nat} (h : 2 * i ≤ map) :
    (mapsFrom lvd fuel i map).Pairwise fun a b => a.1 < b.1 := by
  induction fuel generalizing i map with
  | zero => simp [mapsFrom]
  | succ fuel ih =>
    rw [mapsFrom]
    split
    · rename_i hwalk
      have hlen := hwalk.2.1
      refine List.pairwise_cons.mpr ⟨fun m hmem => ?_, ih (by omega)⟩
      exact (mapsFrom_bounds (i := i + 1) (by omega) m hmem).1
    · simp

theorem parsed_foldl {part part' : UdfPartitions}
    (h : udfParsePartitionMaps (.ofImage image nblocks) vds part () = .ok ((true, part'), ())) :
    ((walkedMaps vds.lvd).foldl (takeMap image vds) (part, 0)).2 ≠ 0 ∧
      ((walkedMaps vds.lvd).foldl (takeMap image vds) (part, 0)).1 = part' := by
  rw [udfParsePartitionMaps_ofImage] at h
  have hpair := congrArg Prod.fst (Except.ok.inj h)
  exact ⟨of_decide_eq_true (Prod.mk.inj hpair).1, (Prod.mk.inj hpair).2⟩

/-- The partition table of a successful parse. -/
theorem parsed_p0 {part part' : UdfPartitions}
    (h : udfParsePartitionMaps (.ofImage image nblocks) vds part () = .ok ((true, part'), ())) :
    part'.p0.lba = vds.pd.startBlock ∧
      IsLeast {i | ∃ map, (i, map) ∈ walkedMaps vds.lvd ∧ RefersTo vds.lvd vds.pd.number map}
        part'.p0.number.toNat := by
  obtain ⟨hn, hpart⟩ := parsed_foldl h
  obtain ⟨before, ⟨i, map⟩, after, hmaps, hr, hbefore, hp0⟩ := foldl_p0 _ _ hn
  rw [hpart] at hp0
  have hmem : (i, map) ∈ walkedMaps vds.lvd := by simp [hmaps]
  have hi : (UInt16.ofNat i).toNat = i := by
    have hlt : i < 1024 := (mapsFrom_bounds (by omega) (i, map) hmem).2
    rw [UInt16.toNat_ofNat', Nat.mod_eq_of_lt (by omega)]
  rw [hp0]
  refine ⟨rfl, ?_⟩
  simp only [hi]
  refine ⟨⟨map, hmem, hr⟩, ?_⟩
  rintro j ⟨map', hmem', hr'⟩
  have hsorted : (walkedMaps vds.lvd).Pairwise fun a b => a.1 < b.1 := mapsFrom_sorted (by omega)
  rw [hmaps] at hmem' hsorted
  rcases List.mem_append.mp hmem' with hb | ha
  · exact absurd hr' (hbefore _ hb)
  · rcases List.mem_cons.mp ha with heq | ha
    · cases heq
      exact le_refl _
    · exact le_of_lt ((List.pairwise_cons.mp (List.pairwise_append.mp hsorted).2.1).1 _ ha)

/-- The selected partition is the one that is opened. -/
theorem selectedPartition_opened {udf udf' : Udfread} {partNumber : Int} {fuel : Nat}
    {part : UdfPartitions}
    (hsel : udfreadSelectPartition udf partNumber = (0, udf'))
    (hvds : udfReadVds (.ofImage image nblocks) fuel partNumber () = .ok (some vds, ()))
    (hmaps : udfParsePartitionMaps (.ofImage image nblocks) vds .zero () =
      .ok ((true, part), ())) :
    ∃ avdp ds, readAvdp (.ofImage image nblocks) () = .ok (some avdp, ()) ∧
      MeetsVds image partNumber avdp ds ∧
      (0 ≤ partNumber →
        (partitionsOf ds).find? (fun pd => partNumber = pd.number.toNat) = some vds.pd) ∧
      (partNumber = partitionFirst → (partitionsOf ds).head? = some vds.pd) ∧
      (partNumber = partitionLast → (partitionsOf ds).getLast? = some vds.pd) ∧
      (0 ≤ partNumber ∨ partNumber = partitionFirst ∨ partNumber = partitionLast) ∧
      part.p0.lba = vds.pd.startBlock ∧
      IsLeast {i | ∃ map, (i, map) ∈ walkedMaps vds.lvd ∧ RefersTo vds.lvd vds.pd.number map}
        part.p0.number.toNat := by
  obtain ⟨a, ha⟩ := readAvdp_ofImage image nblocks
  cases a with
  | none =>
    rw [udfReadVds, Proc.bind_of_ok ha] at hvds
    cases hvds
  | some avdp =>
    obtain ⟨ds, m, vds', hmeets, htake, hr⟩ := udfReadVds_meets ha hvds
    have hreq : m.haveRequired = true := by
      by_contra hc
      rw [if_neg hc] at hr
      cases hr
    rw [if_pos hreq] at hr
    cases hr
    have hds : HasPartition partNumber ds := by
      simp only [VdsMask.haveRequired, Bool.and_eq_true] at hreq
      exact ((takeAll_part htake).mp hreq.1).resolve_left (by decide)
    have hrange : partitionLast ≤ partNumber := by
      unfold udfreadSelectPartition at hsel
      split at hsel
      · cases hsel
      · split at hsel
        · cases hsel
        · omega
    have hfind : partNumber ≠ partitionLast →
        (partitionsOf ds).find? (fun pd => Matches partNumber pd) = some vds.pd := by
      intro hlast
      obtain ⟨pd, hmem, hmatch⟩ := hds
      cases hfind : (partitionsOf ds).find? (fun pd => Matches partNumber pd) with
      | none => exact absurd (by simpa using hmatch) (List.find?_eq_none.mp hfind pd hmem)
      | some found => rw [(takeAll_pd hlast htake).2 rfl found hfind]
    have hlastval : partitionLast = -2 := rfl
    have hfirstval : partitionFirst = -1 := rfl
    refine ⟨avdp, ds, ha, hmeets, fun hnum => ?_, fun hfirst => ?_, fun hlast => ?_, by omega,
      parsed_p0 hmaps⟩
    · have hmatch : (fun pd : PartitionDescriptor => decide (Matches partNumber pd)) =
          fun pd => decide (partNumber = pd.number.toNat) := by
        funext pd
        unfold Matches
        simp only [show ¬ partNumber < 0 by omega, false_or]
      rw [← hfind (by omega), hmatch]
    · have hmatch : (fun pd : PartitionDescriptor => decide (Matches partNumber pd)) =
          fun _ => true := by
        funext pd
        exact decide_eq_true (.inl (by omega))
      rw [← hfind (by omega), hmatch]
      cases partitionsOf ds <;> rfl
    · subst hlast
      obtain ⟨pd, hmem, -⟩ := hds
      rw [takeAll_pd_last htake]
      cases hget : (partitionsOf ds).getLast? with
      | none =>
        rw [List.getLast?_eq_none_iff.mp hget] at hmem
        cases hmem
      | some last => rfl

end

/-! ## The second of two partitions -/

/-- Partition 8 starts at block 400. -/
def secondPartitionBlock : Nat → UInt8 := withField 22 [8] (withField 188 [144, 1] (tagged 5))

/-- A map of partition 7 and a map of partition 8. -/
def twoMapsBlock : Nat → UInt8 :=
  withField 440 [1, 6, 1, 0, 7, 0, 1, 6, 1, 0, 8, 0]
    (withField 264 [12, 0, 0, 0, 2] (logicalBlock 7))

/-- The descriptors of a volume with partitions 7 and 8. -/
def twoMapsVolume : Image := fun lba =>
  if lba = 256 then some (withField 16 [0, 32, 0, 0, 32] (tagged 2))
  else if lba = 32 then some (tagged 1)
  else if lba = 33 then some (partitionBlock 7)
  else if lba = 34 then some secondPartitionBlock
  else if lba = 35 then some twoMapsBlock
  else none

def twoMapsVds : VolumeDescriptorSet :=
  match udfReadVds (.ofImage twoMapsVolume none) 1 8 () with
  | .ok (some vds, _) => vds
  | _ => .zero

theorem twoMapsVolume_vds : udfReadVds (.ofImage twoMapsVolume none) 1 8 () =
    .ok (some twoMapsVds, ()) := by
  decide +kernel

theorem twoMapsVolume_maps :
    udfParsePartitionMaps (.ofImage twoMapsVolume none) twoMapsVds .zero () =
      .ok ((true, { UdfPartitions.zero with
        numPartition := 1, p0 := { number := 1, lba := 400, mirrorLba := 0 } }), ()) := by
  decide +kernel

/-- Partition 8 is opened, and its references are those of map 1. -/
theorem selectedPartition_opened_second :
    ∃ avdp ds, readAvdp (.ofImage twoMapsVolume none) () = .ok (some avdp, ()) ∧
      MeetsVds twoMapsVolume 8 avdp ds ∧
      (partitionsOf ds).find? (fun pd => (8 : Int) = pd.number.toNat) = some twoMapsVds.pd ∧
      400 = twoMapsVds.pd.startBlock ∧
      IsLeast {i | ∃ map, (i, map) ∈ walkedMaps twoMapsVds.lvd ∧
        RefersTo twoMapsVds.lvd twoMapsVds.pd.number map} (1 : UInt16).toNat := by
  have hsel : udfreadSelectPartition (.init partitionFirst) 8 = (0, .init 8) := rfl
  obtain ⟨avdp, ds, havdp, hmeets, hnumber, -, -, -, hstart, hleast⟩ :=
    selectedPartition_opened hsel twoMapsVolume_vds twoMapsVolume_maps
  exact ⟨avdp, ds, havdp, hmeets, hnumber (by decide), hstart, hleast⟩

end UdfRead
