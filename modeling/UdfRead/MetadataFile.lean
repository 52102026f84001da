import UdfRead.FileLba
import UdfRead.MetadataMaps
import UdfRead.Reads

/-!
# UdfRead.MetadataFile

The addresses of the metadata partition. The code keeps the address of the first descriptor of the
metadata file and adds logical block numbers to it, which agrees with the descriptors of the file
exactly if they lie one behind the other (`metadataAddresses_iff`).
-/

namespace UdfRead

open CModel Extents

/-- The block of the medium that the descriptors assign to logical block `n`. -/
def assigned (start : UInt32) (ads : List LongAd) (n : UInt32) : Option UInt32 :=
  (locate adSlots ads n.toNat).map fun (ad, k) => start + ad.lba + UInt32.ofNat k

/-- The table `part` of a volume with one metadata partition map, number `m.1` at byte `m.2`, whose
metadata file has the descriptors `first :: rest`. -/
structure MetadataVolume (image : Image) (nblocks : Option UInt32) (vds : VolumeDescriptorSet)
    (part : UdfPartitions) (m : Nat × Nat) (first : LongAd) (rest : List LongAd) : Prop where
  parsed : udfParsePartitionMaps (.ofImage image nblocks) vds .zero () = .ok ((true, part), ())
  mapped : part.numPartition = 2
  walked : m ∈ walkedMaps vds.lvd
  metadataMap : IsMetadataMap vds.lvd m.2
  unique : ∀ m' ∈ walkedMaps vds.lvd, IsMetadataMap vds.lvd m'.2 → m' = m
  /-- the metadata file entry -/
  entry : ∃ buf fe t,
    imageTag image (vds.pd.startBlock + metadataBlock vds.lvd m.2) = (.extendedFileEntry, buf) ∧
      decodeExtFileEntry buf 2048 vds.pd.number = .ok (some fe) ∧
      fe.fileType = fileTypeMetadata ∧ fe.u = .ads t (first :: rest)
  /-- the mirror file has a type of its own, or its entry is the same -/
  mirror : ∀ ad, metadataEntry image vds.pd (mirrorBlock vds.lvd m.2) = some (fileTypeMetadata, ad) →
    ad = first
  recorded : ∀ ad ∈ first :: rest, ad.extentType = LongAd.extentNormal ∧ 2048 ∣ ad.length.toNat

/-- Each logical block of the file is read from the block it is assigned to, as the first or as a
later block of a read. -/
structure ReadsAssigned (I : BlockInput Unit) (start : UInt32) (part : UdfPartitions)
    (ads : List LongAd) : Prop where
  first : ∀ loc lba, loc.partition = part.p1.number → assigned start ads loc.lba = some lba →
    Proc.AddsFirst (readMetadataBlocks I.logged part loc) lba
  later : ∀ loc i lba, assigned start ads (loc.lba + i) = some lba →
    Proc.AddsFirst (readFollowing I.logged part.p1 loc i) lba

/-- The address that stands for logical block 0. It is that of the first descriptor, unless this
makes block 0 of the medium: then the code uses the mirror file. -/
def metadataBase (image : Image) (vds : VolumeDescriptorSet) (map : Nat) (first : LongAd) : UInt32 :=
  if vds.pd.startBlock + first.lba ≠ 0 then first.lba
  else
    match metadataEntry image vds.pd (mirrorBlock vds.lvd map) with
    | some (_, ad) => ad.lba
    | none => first.lba

/-- Each descriptor that covers a block lies behind the blocks of those in front of it, counted from
`base`. -/
def EndToEnd (base : UInt32) (ads : List LongAd) : Prop :=
  ∀ before ad after, ads = before ++ ad :: after → adSlots ad ≠ 0 → total adSlots before < 2 ^ 32 →
    ad.lba = base + UInt32.ofNat (total adSlots before)

section

variable {image : Image} {nblocks : Option UInt32} {vds : VolumeDescriptorSet}
  {part : UdfPartitions} {m : Nat × Nat} {first : LongAd} {rest ads : List LongAd}
  {start base n : UInt32} {I : BlockInput Unit}

/-! ## The offset and the descriptors -/

theorem endToEnd_assigned (h : EndToEnd base ads) {lba : UInt32}
    (hn : assigned start ads n = some lba) : lba = start + base + n := by
  obtain ⟨⟨ad, k⟩, hloc, rfl⟩ := Option.map_eq_some_iff.mp hn
  obtain ⟨before, after, rfl, hsplit⟩ := locate_split hloc
  have hlt := n.toNat_lt
  have hslots : adSlots ad ≠ 0 := Nat.ne_of_gt (Nat.zero_lt_of_lt (locate_lt hloc))
  have hn : n = UInt32.ofNat (total adSlots before) + UInt32.ofNat k := by
    rw [← UInt32.ofNat_add, ← hsplit, UInt32.ofNat_toNat]
  simp only
  rw [h before ad after rfl hslots (by omega), hn]
  simp only [UInt32.add_assoc]

/-- The first block of a descriptor. -/
theorem assigned_head {before after : List LongAd} {ad : LongAd} (hslots : adSlots ad ≠ 0)
    (hlt : total adSlots before < 2 ^ 32) :
    assigned start (before ++ ad :: after) (UInt32.ofNat (total adSlots before)) =
      some (start + ad.lba) := by
  have hn : (UInt32.ofNat (total adSlots before)).toNat = total adSlots before + 0 := by
    rw [UInt32.toNat_ofNat', Nat.mod_eq_of_lt hlt, Nat.add_zero]
  rw [assigned, hn, locate_append (Nat.pos_of_ne_zero hslots)]
  exact congrArg some (UInt32.add_zero _)

theorem readsAssigned_iff (hp : partitionOf part part.p1.number = some part.p1)
    (hbase : part.p1.lba = start + base) : ReadsAssigned I start part ads ↔ EndToEnd base ads := by
  constructor
  · rintro ⟨hfirst, -⟩ before ad after rfl hslots hlt
    have hread := hfirst { lba := UInt32.ofNat (total adSlots before), length := 2048,
                           partition := part.p1.number, extentType := 0 } _ rfl
      (assigned_head hslots hlt)
    have heq := hread.unique () (readMetadataBlocks_addsFirst hp)
    rw [hbase, UInt32.add_assoc] at heq
    exact (UInt32.add_right_inj _).mp heq
  · intro h
    refine ⟨fun loc lba hpart hlba => ?_, fun loc i lba hlba => ?_⟩
    · rw [endToEnd_assigned h hlba, ← hbase]
      exact readMetadataBlocks_addsFirst (hpart ▸ hp)
    · rw [endToEnd_assigned h hlba, ← hbase, ← UInt32.add_assoc]
      exact readFollowing_addsFirst i

/-! ## The table of the volume -/

theorem walkedMaps_nodup (lvd : LogicalVolumeDescriptor) : (walkedMaps lvd).Nodup :=
  (mapsFrom_sorted (by omega)).imp fun {a b} hlt he => by
    rw [he] at hlt
    exact lt_irrefl _ hlt

namespace MetadataVolume

variable (h : MetadataVolume image nblocks vds part m first rest)

include h

theorem usable : Usable image vds m.2 := by
  by_contra hnot
  obtain ⟨-, hpart⟩ := parsed_foldl h.parsed
  have hne := foldl_unusable image vds (walkedMaps vds.lvd) (.zero, 0)
    (fun m' hm' hu => hnot (h.unique m' hm' hu.1 ▸ hu)) rfl (by decide)
  rw [hpart] at hne
  exact hne h.mapped

theorem entry_eq : metadataEntry image vds.pd (metadataBlock vds.lvd m.2) =
    some (fileTypeMetadata, first) := by
  obtain ⟨buf, fe, t, htag, hdec, htype, hu⟩ := h.entry
  simp [metadataEntry, htag, hdec, hu, htype]

/-- The table holds what the one metadata map is resolved to. -/
theorem p1_eq : part.p1.lba = (resolveMap image vds m.2 .zero).lba ∧
    part.p1.number.toNat = m.1 := by
  obtain ⟨hn, hpart⟩ := parsed_foldl h.parsed
  obtain ⟨before, after, hmaps⟩ := List.append_of_mem h.walked
  have hnodup := walkedMaps_nodup vds.lvd
  rw [hmaps] at hnodup hn hpart
  have hother : ∀ m' ∈ before ++ after, ¬ IsMetadataMap vds.lvd m'.2 := by
    intro m' hm' hmeta
    have hmem : m' ∈ walkedMaps vds.lvd := by
      rw [hmaps]
      rcases List.mem_append.mp hm' with hb | ha
      · exact List.mem_append_left _ hb
      · exact List.mem_append_right _ (List.mem_cons_of_mem _ ha)
    obtain rfl := h.unique m' hmem hmeta
    have hcons : (m' :: (before ++ after)).Nodup := List.nodup_middle.mp hnodup
    exact (List.nodup_cons.mp hcons).1 hm'
  have hleft : metadataLeft image vds before .zero = .zero := by
    unfold metadataLeft
    have hbefore := fun m' hm' => hother m' (List.mem_append_left _ hm')
    clear hmaps hnodup hn hpart hother
    induction before with
    | nil => rfl
    | cons m' before ih =>
      rw [List.foldl_cons, if_neg (hbefore m' List.mem_cons_self)]
      exact ih fun m'' hm'' => hbefore m'' (List.mem_cons_of_mem _ hm'')
  obtain ⟨hloc, hnumber, -⟩ := foldl_split h.metadataMap
    (fun m' hm' => hother m' (List.mem_append_right _ hm')) hn hpart rfl
  rw [hleft] at hloc hnumber
  refine ⟨congrArg Prod.fst hloc, ?_⟩
  rw [hnumber h.usable.2, walkedMaps_number h.walked]

theorem partitionOf_p1 : partitionOf part part.p1.number = some part.p1 := by
  obtain ⟨-, ⟨map, hmem, hrefers⟩, -⟩ := parsed_p0 h.parsed
  have hne : part.p1.number ≠ part.p0.number := by
    intro he
    have hsame := walkedMaps_index hmem h.walked (by
      rw [← h.p1_eq.2, he])
    have htype := h.metadataMap.1
    rw [← hsame, hrefers.1] at htype
    cases htype
  simp [partitionOf, hne, h.mapped]

theorem p1_base : part.p1.lba = vds.pd.startBlock + metadataBase image vds m.2 first := by
  have husable := h.usable.2
  have hmirror := h.mirror
  rw [h.p1_eq.1]
  unfold resolveMap metadataBase at *
  rw [h.entry_eq] at husable ⊢
  cases hentry : metadataEntry image vds.pd (mirrorBlock vds.lvd m.2) with
  | none =>
    rw [hentry] at husable
    by_cases hzero : vds.pd.startBlock + first.lba = 0
    · simp [setLocation, useMirror, Partition.zero, hzero] at husable
    · simp [setLocation, useMirror, Partition.zero, hzero]
  | some e =>
    obtain ⟨fileType, ad⟩ := e
    rw [hentry] at husable
    by_cases htype : fileType = fileTypeMetadata
    · obtain rfl := hmirror ad (htype ▸ hentry)
      by_cases hzero : vds.pd.startBlock + ad.lba = 0
      · simp [setLocation, useMirror, Partition.zero, hzero, htype] at husable
      · simp [setLocation, useMirror, Partition.zero, hzero, htype]
    by_cases hset : fileType = fileTypeMetadataMirror
    · subst hset
      by_cases hzero : vds.pd.startBlock + first.lba = 0
      · by_cases had : vds.pd.startBlock + ad.lba = 0
        · simp [setLocation, useMirror, Partition.zero, hzero, had, htype] at husable
        · simp [setLocation, useMirror, Partition.zero, hzero, had, htype]
      · simp [setLocation, useMirror, Partition.zero, hzero, htype]
    · by_cases hzero : vds.pd.startBlock + first.lba = 0
      · simp [setLocation, useMirror, Partition.zero, hzero, htype, hset] at husable
      · simp [setLocation, useMirror, Partition.zero, hzero, htype, hset]

end MetadataVolume

/-- The metadata partition is read from the blocks that its file's descriptors assign, exactly if
the descriptors lie one behind the other. -/
theorem metadataAddresses_iff (h : MetadataVolume image nblocks vds part m first rest) :
    ReadsAssigned (.ofImage image nblocks) vds.pd.startBlock part (first :: rest) ↔
      EndToEnd (metadataBase image vds m.2 first) (first :: rest) :=
  readsAssigned_iff h.partitionOf_p1 h.p1_base

end

/-! ## Two extents -/

/-- A metadata file of two blocks: block 5 of the partition, and block `second`. -/
def twoExtents (second : UInt8) : Image := fun lba =>
  if lba = 300 then
    some (withField 20 [4] (withField 27 [250] (withField 212 [16]
      (withField 217 [8, 0, 0, 5, 0, 0, 0, 0, 8, 0, 0, second] (tagged 266)))))
  else none

def oneBlock (lba : UInt32) : LongAd := { lba, length := 2048, partition := 0, extentType := 0 }

def twoExtentsTable : UdfPartitions where
  numPartition := 2
  p0 := { number := 0, lba := 300, mirrorLba := 0 }
  p1 := { number := 1, lba := 305, mirrorLba := 0 }

theorem twoExtents_volume {second : UInt8} (h : second = 6 ∨ second = 9) :
    MetadataVolume (twoExtents second) none (twoMaps type1Map metadataMap) twoExtentsTable (1, 6)
      (oneBlock 5) [oneBlock second.toUInt32] where
  parsed := by rcases h with rfl | rfl <;> decide +kernel
  mapped := rfl
  walked := by decide +kernel
  metadataMap := by decide +kernel
  unique := by decide +kernel
  entry := by
    have hdec : decodeExtFileEntry (imageTag (twoExtents second) 300).2 2048 0 =
        .ok (some ⟨0, 250, .ads .short [oneBlock 5, oneBlock second.toUInt32]⟩) := by
      rcases h with rfl | rfl <;> decide +kernel
    refine ⟨(imageTag (twoExtents second) 300).2, _, .short, ?_, hdec, rfl, rfl⟩
    rcases h with rfl | rfl <;> decide +kernel
  mirror := by
    have hentry : metadataEntry (twoExtents second) (twoMaps type1Map metadataMap).pd
        (mirrorBlock (twoMaps type1Map metadataMap).lvd 6) = some (fileTypeMetadata, oneBlock 5) := by
      rcases h with rfl | rfl <;> decide +kernel
    intro ad had
    cases hentry.symm.trans had
    rfl
  recorded := by
    intro ad had
    rcases List.mem_cons.mp had with rfl | had
    · exact ⟨rfl, 1, rfl⟩
    · obtain rfl := List.mem_singleton.mp had
      exact ⟨rfl, 1, rfl⟩

theorem metadataAddresses_iff_contiguous :
    ReadsAssigned (.ofImage (twoExtents 6) none) 300 twoExtentsTable [oneBlock 5, oneBlock 6] ↔
      EndToEnd (metadataBase (twoExtents 6) (twoMaps type1Map metadataMap) 6 (oneBlock 5))
        [oneBlock 5, oneBlock 6] :=
  metadataAddresses_iff (twoExtents_volume (.inl rfl))

/-- The second block of the file is block 309 of the medium, and the code reads block 306. -/
theorem metadataAddresses_fragmented :
    MetadataVolume (twoExtents 9) none (twoMaps type1Map metadataMap) twoExtentsTable (1, 6)
        (oneBlock 5) [oneBlock 9] ∧
      assigned 300 [oneBlock 5, oneBlock 9] 1 = some 309 ∧
      Proc.AddsFirst (readMetadataBlocks (BlockInput.ofImage (twoExtents 9) none).logged
        twoExtentsTable { lba := 1, length := 2048, partition := 1, extentType := 0 }) 306 ∧
      ¬ ReadsAssigned (.ofImage (twoExtents 9) none) 300 twoExtentsTable
        [oneBlock 5, oneBlock 9] := by
  have hassigned : assigned 300 [oneBlock 5, oneBlock 9] 1 = some 309 := by decide
  have hread : Proc.AddsFirst (readMetadataBlocks (BlockInput.ofImage (twoExtents 9) none).logged
      twoExtentsTable { lba := 1, length := 2048, partition := 1, extentType := 0 }) 306 :=
    readMetadataBlocks_addsFirst (p := twoExtentsTable.p1) rfl
  refine ⟨twoExtents_volume (.inr rfl), hassigned, hread, fun h => ?_⟩
  exact absurd (hread.unique () (h.first _ 309 rfl hassigned)) (by decide)

end UdfRead
