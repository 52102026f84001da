import UdfRead.FileIdentifiers

/-!
# UdfRead.DirEncoding

Parsing a directory file undoes encoding it, also when the file is cut off anywhere
(`parseDirFile_encoded`).
-/

namespace UdfRead

open CModel

/-- `b` encodes the identifier `d`. The fields the parser does not read are free: the rest of the
tag, the file version, the implementation use fields and the padding. -/
structure EncodesFid (d : FileIdentifier) (b : Bytes) : Prop where
  tag : leVal b 0 2 = 257
  checksum : checksumAt b 0 = b.getD 4 0
  characteristic : leVal b 18 1 = d.characteristic.toNat
  nameLength : nameLengthAt b 0 = d.filename.length
  icbLength : d.icb.length.toNat < 2 ^ 30
  icbExtent : leVal b 20 4 = d.icb.length.toNat + 2 ^ 30 * d.icb.extentType.toNat
  icbLba : leVal b 24 4 = d.icb.lba.toNat
  icbPartition : leVal b 28 2 = d.icb.partition.toNat
  name : (b.drop (38 + useLengthAt b 0)).take d.filename.length = d.filename
  length : b.length = padded (fidSize b 0)

/-- An encoding of the identifier with the implementation use field `iu`. -/
def encodeFid (d : FileIdentifier) (iu : Bytes) : Bytes :=
  [1, 1, 0, 0, 2, 0, 0, 0, 0, 0, 0, 0, 0, 0, 0, 0, 1, 0, d.characteristic,
    UInt8.ofNat d.filename.length] ++
  leBytes 4 (d.icb.length.toNat + 2 ^ 30 * d.icb.extentType.toNat) ++ leBytes 4 d.icb.lba.toNat ++
  leBytes 2 d.icb.partition.toNat ++ [0, 0, 0, 0, 0, 0] ++ leBytes 2 iu.length ++ iu ++ d.filename ++
  List.replicate (padded (38 + iu.length + d.filename.length) - (38 + iu.length + d.filename.length)) 0

theorem encodesFid_encodeFid {d : FileIdentifier} {iu : Bytes} (hname : d.filename.length ≤ 255)
    (hiu : iu.length ≤ 65535) (hlen : d.icb.length.toNat < 2 ^ 30) (htype : d.icb.extentType.toNat < 4) :
    EncodesFid d (encodeFid d iu) := by
  have huse : useLengthAt (encodeFid d iu) 0 = iu.length := by
    simp [useLengthAt, encodeFid, leBytes, leVal]
    omega
  have hn : nameLengthAt (encodeFid d iu) 0 = d.filename.length := by
    simp [nameLengthAt, encodeFid, leBytes, leVal]
    omega
  have hlba := d.icb.lba.toNat_lt
  have hpart := d.icb.partition.toNat_lt
  have hsize : fidSize (encodeFid d iu) 0 = 38 + iu.length + d.filename.length := by
    rw [fidSize, huse, hn]
  refine ⟨?_, ?_, ?_, hn, hlen, ?_, ?_, ?_, ?_, ?_⟩
  · simp [encodeFid, leVal]
  · simp [encodeFid, checksumAt]
  · simp [encodeFid, leVal]
  · simp [encodeFid, leBytes, leVal]
    omega
  · simp [encodeFid, leBytes, leVal]
    omega
  · simp [encodeFid, leBytes, leVal]
    omega
  · rw [huse, encodeFid, List.append_assoc _ d.filename, List.drop_left' (by simp; omega),
      List.take_left]
  · rw [hsize]
    have := le_padded (38 + iu.length + d.filename.length)
    simp [encodeFid]
    omega

/-- Encoded identifiers, each with the offset it starts at. -/
def placed : (offset : Nat) → List (FileIdentifier × Bytes) → List (Nat × FileIdentifier × Bytes)
  | _, [] => []
  | offset, r :: rest => (offset, r) :: placed (offset + r.2.length) rest

/-- The entries of the identifiers that lie wholly inside of the first `n` bytes. -/
def listedWithin (n offset : Nat) (rs : List (FileIdentifier × Bytes)) : List UdfFileIdentifier :=
  ((placed offset rs).filter fun r => r.1 + fidSize r.2.2 0 ≤ n).filterMap fun r => listedEntry r.2.1

/-- The concatenation of the encoded identifiers. -/
def dirBytes (rs : List (FileIdentifier × Bytes)) : Bytes := (rs.map Prod.snd).flatten

section

variable {d : FileIdentifier} {b data : Bytes} {n offset : Nat}
  {r : FileIdentifier × Bytes} {rs : List (FileIdentifier × Bytes)}

@[simp] theorem dirBytes_cons : dirBytes (r :: rs) = r.2 ++ dirBytes rs := by
  simp [dirBytes]

theorem fidSize_ge (p : Bytes) (i : Nat) : 38 ≤ fidSize p i := by
  unfold fidSize
  omega

/-! ## Offsets -/

theorem offset_le_placed {o : Nat} (h : (o, r) ∈ placed offset rs) : offset ≤ o := by
  induction rs generalizing offset with
  | nil => simp [placed] at h
  | cons r' rs ih =>
    rw [placed, List.mem_cons] at h
    cases h with
    | inl h =>
      cases h
      exact le_refl _
    | inr h =>
      have := ih h
      omega

theorem listedWithin_nil : listedWithin n offset [] = [] := rfl

theorem listedWithin_past (h : n < offset + 38) : listedWithin n offset rs = [] := by
  have hnone : (placed offset rs).filter (fun r => r.1 + fidSize r.2.2 0 ≤ n) = [] := by
    rw [List.filter_eq_nil_iff]
    rintro ⟨o, r⟩ hr
    have ho := offset_le_placed hr
    have hs := fidSize_ge r.2 0
    simp
    omega
  rw [listedWithin, hnone]
  rfl

theorem listedWithin_inside (h : offset + fidSize r.2 0 ≤ n) :
    listedWithin n offset (r :: rs) =
      (listedEntry r.1).toList ++ listedWithin n (offset + r.2.length) rs := by
  unfold listedWithin
  rw [placed, List.filter_cons_of_pos (by simpa using h), List.filterMap_cons]
  cases listedEntry r.1 with
  | none => rfl
  | some e => rfl

theorem listedWithin_outside (hr : EncodesFid r.1 r.2) (h : n < offset + fidSize r.2 0) :
    listedWithin n offset (r :: rs) = [] := by
  have hlen := le_padded (fidSize r.2 0)
  rw [← hr.length] at hlen
  have hpast : listedWithin n (offset + r.2.length) rs = [] := listedWithin_past (by omega)
  unfold listedWithin at hpast ⊢
  rw [placed, List.filter_cons_of_neg (by simp; omega), hpast]

/-! ## Identifiers inside of the file -/

/-- The tag is valid as soon as its 16 bytes are there. -/
theorem tagAt_encoded {m : Nat} (hb : EncodesFid d b) (h : Agrees data offset b m) (hm : 16 ≤ m) :
    tagAt data offset = .fileIdentifierDescriptor := by
  rw [agrees_tag h hm, tagAt, hb.checksum, hb.tag, if_neg (not_not_intro rfl)]
  decide

theorem fidSize_encoded {m : Nat} (h : Agrees data offset b m) (hm : 38 ≤ m) :
    fidSize data offset = fidSize b 0 := by
  have huse : useLengthAt data offset = useLengthAt b 0 := by
    rw [useLengthAt, useLengthAt, h.leVal (by omega), Nat.zero_add]
  have hname : nameLengthAt data offset = nameLengthAt b 0 := by
    rw [nameLengthAt, nameLengthAt, h.leVal (by omega), Nat.zero_add]
  rw [fidSize, fidSize, huse, hname]

theorem take_drop_agrees {m i w : Nat} (h : Agrees data offset b m) (hi : i + w ≤ m)
    (hdata : offset + m ≤ data.length) (hb : m ≤ b.length) :
    (data.drop (offset + i)).take w = (b.drop i).take w := by
  apply List.ext_getElem
  · simp
    omega
  · intro k hk hk'
    have hkw : k < w := by
      simp at hk
      omega
    have := h (i + k) (by omega)
    rw [List.getD_eq_getElem _ _ (by omega), List.getD_eq_getElem _ _ (by omega)] at this
    simpa [Nat.add_assoc] using this

theorem fidAt_encoded {m : Nat} (hb : EncodesFid d b) (h : Agrees data offset b m)
    (hm : fidSize b 0 ≤ m) (hdata : offset + m ≤ data.length) (hbm : m ≤ b.length) :
    fidAt data offset = d := by
  have h38 := fidSize_ge b 0
  have huse : useLengthAt data offset = useLengthAt b 0 := by
    rw [useLengthAt, useLengthAt, h.leVal (by omega), Nat.zero_add]
  have hname : nameLengthAt data offset = d.filename.length := by
    rw [nameLengthAt, h.leVal (by omega), ← hb.nameLength, nameLengthAt, Nat.zero_add]
  have hext := hb.icbExtent
  have hlt := hb.icbLength
  have hfit : 38 + useLengthAt b 0 + d.filename.length ≤ m := by
    rw [← hb.nameLength]
    exact hm
  have hicb : adAt .long data 0 (offset + 20) = d.icb := by
    have h20 : leVal data (offset + 20) 4 = _ := h.leVal (by omega)
    have h24 : leVal data (offset + 20 + 4) 4 = _ := h.leVal (i := 24) (by omega)
    have h28 : leVal data (offset + 20 + 8) 2 = _ := h.leVal (i := 28) (by omega)
    have hmod : (d.icb.length.toNat + 2 ^ 30 * d.icb.extentType.toNat) % 2 ^ 30 =
        d.icb.length.toNat := by omega
    have hdiv : (d.icb.length.toNat + 2 ^ 30 * d.icb.extentType.toNat) / 2 ^ 30 =
        d.icb.extentType.toNat := by omega
    rw [adAt, AdType.lbaAt, AdType.partitionAt, h20, h24, h28, hext, hb.icbLba, hb.icbPartition,
      hmod, hdiv, UInt32.ofNat_toNat, UInt32.ofNat_toNat, UInt16.ofNat_toNat, UInt8.ofNat_toNat]
  have hchar : UInt8.ofNat (leVal data (offset + 18) 1) = d.characteristic := by
    rw [h.leVal (by omega), hb.characteristic, UInt8.ofNat_toNat]
  have hfile : (data.drop (offset + 38 + useLengthAt data offset)).take (nameLengthAt data offset) =
      d.filename := by
    rw [huse, hname, Nat.add_assoc, take_drop_agrees h hfit hdata hbm, hb.name]
  rw [fidAt, hicb, hchar, hfile]

/-! ## The loop -/

/-- What is left of the file is what is left of the encoded identifiers, cut off. -/
def Left (data : Bytes) (offset : Nat) (rs : List (FileIdentifier × Bytes)) : Prop :=
  data.length - offset ≤ (dirBytes rs).length ∧
    data.drop offset = (dirBytes rs).take (data.length - offset)

theorem Left.agrees (h : Left data offset (r :: rs)) :
    Agrees data offset r.2 (min (data.length - offset) r.2.length) := by
  intro k hk
  have hget : (data.drop offset)[k]? = r.2[k]? := by
    rw [h.2, List.getElem?_take_of_lt (by omega), dirBytes_cons,
      List.getElem?_append_left (by omega)]
  rw [List.getElem?_drop] at hget
  rw [List.getD_eq_getElem?_getD, List.getD_eq_getElem?_getD, hget]

theorem Left.next (h : Left data offset (r :: rs)) : Left data (offset + r.2.length) rs := by
  obtain ⟨hlen, hdrop⟩ := h
  rw [dirBytes_cons, List.length_append] at hlen
  refine ⟨by omega, ?_⟩
  rw [← List.drop_drop, hdrop, dirBytes_cons, List.drop_take, List.drop_left,
    show data.length - offset - r.2.length = data.length - (offset + r.2.length) by omega]

/-- Each turn takes one identifier off the list; the identifier that is cut off ends the loop. -/
theorem parseDirLoop_encoded (hrs : ∀ r ∈ rs, EncodesFid r.1 r.2) (hleft : Left data offset rs)
    (hdata : data.length < 2 ^ 32) {fuel : Nat} (hone : 1 ≤ fuel)
    (hfuel : data.length - offset ≤ fuel) {dir : List UdfFileIdentifier} (hdir : 38 * dir.length ≤ offset) :
    parseDirLoop data data.length fuel offset dir =
      .ok (0, dir ++ listedWithin data.length offset rs) := by
  induction rs generalizing offset fuel dir with
  | nil =>
    obtain ⟨fuel, rfl⟩ : ∃ k, fuel = k + 1 := ⟨fuel - 1, by omega⟩
    have hend := hleft.1
    simp [dirBytes] at hend
    rw [parseDirLoop, if_pos (by omega), listedWithin_nil, List.append_nil]
  | cons r rs ih =>
    obtain ⟨fuel, rfl⟩ : ∃ k, fuel = k + 1 := ⟨fuel - 1, by omega⟩
    have hr : EncodesFid r.1 r.2 := hrs r (List.mem_cons_self ..)
    have hpad := le_padded (fidSize r.2 0)
    have h38 := fidSize_ge r.2 0
    rw [← hr.length] at hpad
    have hagree := hleft.agrees
    rw [parseDirLoop]
    by_cases hloop : offset + 16 < data.length
    · rw [if_neg (not_not_intro hloop), if_neg (by omega), decodeDescriptorTag_eq (by omega),
        Res.ok_bind, tagAt_encoded hr hagree (by omega), if_neg (not_not_intro rfl),
        decodeFileIdentifier_eq (by omega), Res.ok_bind]
      by_cases hfit : fidSize r.2 0 ≤ data.length - offset
      · -- the identifier is there, its padding may be cut off
        have hsize := fidSize_encoded hagree (by omega)
        rw [hsize, if_pos hfit, fidAt_encoded hr hagree (by omega) (by omega) (by omega), ← hr.length]
        simp only [dirEntryOf_eq, Res.ok_bind]
        rw [listedWithin_inside (by omega)]
        cases listedEntry r.1 with
        | none =>
          simp only [Option.toList_none, List.nil_append]
          exact ih (fun r' h => hrs r' (List.mem_cons_of_mem _ h)) hleft.next (by omega) (by omega)
            (by omega)
        | some e =>
          simp only [Option.toList_some]
          rw [ih (fun r' h => hrs r' (List.mem_cons_of_mem _ h)) hleft.next (by omega)
            (by omega) (by simp; omega), List.append_assoc]
      · have hcut : ¬ fidSize data offset ≤ data.length - offset := by
          intro hc
          have := fidSize_ge data offset
          rw [fidSize_encoded hagree (by omega)] at hc
          exact hfit hc
        rw [if_neg hcut, listedWithin_outside hr (by omega), List.append_nil]
        rfl
    · rw [if_pos hloop, listedWithin_outside hr (by omega), List.append_nil]

theorem parseDirFile_encoded (hrs : ∀ r ∈ rs, EncodesFid r.1 r.2) (length : UInt32)
    (hlen : length.toNat ≤ (dirBytes rs).length) :
    parseDirFile ((dirBytes rs).take length.toNat) length [] =
      .ok (0, listedWithin length.toNat 0 rs) := by
  have hlt := length.toNat_lt
  have hdata : ((dirBytes rs).take length.toNat).length = length.toNat := by
    rw [List.length_take, Nat.min_eq_left hlen]
  unfold parseDirFile
  by_cases h16 : length < 16
  · have h16' : length.toNat < 16 := UInt32.lt_iff_toNat_lt.mp h16
    rw [if_pos h16, listedWithin_past (by omega)]
  · rw [if_neg h16]
    have hge : 16 ≤ length.toNat := UInt32.le_iff_toNat_le.mp (UInt32.not_lt.mp h16)
    have hleft : Left ((dirBytes rs).take length.toNat) 0 rs := by
      refine ⟨by rw [hdata]; omega, ?_⟩
      rw [hdata, List.drop_zero, Nat.sub_zero]
    have hloop : parseDirLoop _ _ length.toNat 0 [] = _ :=
      parseDirLoop_encoded hrs hleft (by omega) (by omega) (by omega) (by simp)
    rwa [hdata, List.nil_append] at hloop

end

/-! ## A file cut off inside of its second identifier -/

/-- Identifiers `a` and `b`. -/
def fidA : FileIdentifier where
  icb := { lba := 7, length := 2048, partition := 0, extentType := 0 }
  characteristic := 0
  filename := [8, 97]

def fidB : FileIdentifier := { fidA with filename := [8, 98] }

theorem parseDirFile_encoded_cut :
    parseDirFile ((dirBytes [(fidA, encodeFid fidA []), (fidB, encodeFid fidB [1, 2])]).take 79) 79
        [] = .ok (0, listedWithin (79 : UInt32).toNat 0
          [(fidA, encodeFid fidA []), (fidB, encodeFid fidB [1, 2])]) ∧
      listedWithin 79 0 [(fidA, encodeFid fidA []), (fidB, encodeFid fidB [1, 2])] =
        [{ filename := [97], icb := fidA.icb, characteristic := 0 }] := by
  refine ⟨parseDirFile_encoded ?_ 79 (by decide), by decide⟩
  intro r hr
  simp only [List.mem_cons, List.not_mem_nil, or_false] at hr
  rcases hr with rfl | rfl
  · exact encodesFid_encodeFid (by decide) (by decide) (by decide) (by decide)
  · exact encodesFid_encodeFid (by decide) (by decide) (by decide) (by decide)

end UdfRead
