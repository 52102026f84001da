import UdfRead.FileIdentifiers
import UdfRead.Dir
import UdfRead.Lib.ModifiedUtf8

/-!
# UdfRead.Names

What `udf_cs0_to_mutf8` writes for each code unit of a CS0 string. One unit, U+07FF, is written in
three bytes although two are enough, so the result is Modified UTF-8 exactly if that unit does not
occur (`udfCs0ToMutf8_mutf8_iff`). The conversion is injective all the same, so a listed name finds
its entry (`scanDir_listed`).
-/

namespace UdfRead

open CModel

/-! ## Code units -/

/-- Big-endian 16-bit units; an odd trailing byte is ignored. -/
def pairs : Bytes → List UInt16
  | hi :: lo :: rest => UInt16.ofNat (256 * hi.toNat + lo.toNat) :: pairs rest
  | _ => []

/-- The code units of a CS0 string: by its compression id they have 8 or 16 bits. -/
def codeUnits (cs0 : Bytes) : List UInt16 :=
  if cs0.head? = some 8 then cs0.tail.map UInt8.toUInt16 else pairs cs0.tail

/-- What the macros write for one unit. -/
def unitBytes (u : UInt16) : Bytes := if u = 0x7ff then Mutf8.encode3 u else Mutf8.encode u

section

variable {o o' : OutBuf} {b : UInt8} {ch u : UInt16}

theorem OutBuf.put_out (h : o.put b = .ok o') : o'.out = o.out ++ [b] := by
  unfold OutBuf.put at h
  split at h
  · cases h
    rfl
  · cases h

/-- A lead or continuation byte: the payload stands below the tag. -/
theorem or_tag {t x : UInt16} {k n : Nat} (ht : t.toNat = 2 ^ k * n) (hx : x.toNat < 2 ^ k) :
    (t ||| x).toUInt8 = UInt8.ofNat (2 ^ k * n + x.toNat) := by
  have hor : (t ||| x).toNat = 2 ^ k * n + x.toNat := by
    have hshift : 2 ^ k * n = n <<< k := by rw [Nat.shiftLeft_eq, Nat.mul_comm]
    rw [UInt16.toNat_or, ht, hshift, Nat.lor_comm, or_shift_eq _ _ _ hx, Nat.add_comm, hshift]
  apply UInt8.toNat_inj.mp
  rw [UInt16.toNat_toUInt8, hor, UInt8.toNat_ofNat']

theorem toNat_low (ch : UInt16) : (ch &&& 0x3f).toNat = ch.toNat % 64 := by
  rw [UInt16.toNat_and]
  exact Nat.and_two_pow_sub_one_eq_mod ch.toNat 6

theorem toNat_shift6 (ch : UInt16) : (ch >>> 6).toNat = ch.toNat / 64 := by
  rw [UInt16.toNat_shiftRight, Nat.shiftRight_eq_div_pow]
  rfl

theorem toNat_shift12 (ch : UInt16) : (ch >>> 12).toNat = ch.toNat / 4096 := by
  rw [UInt16.toNat_shiftRight, Nat.shiftRight_eq_div_pow]
  rfl

theorem tail_byte (ch : UInt16) :
    ((0x80 : UInt16) ||| (ch &&& 0x3f)).toUInt8 = UInt8.ofNat (0x80 + ch.toNat % 64) := by
  rw [or_tag (k := 6) (n := 2) rfl (by rw [toNat_low]; omega), toNat_low]
  rfl

theorem utf16loToMutf8_out (hch : ch.toNat ≤ 0x7ff) (h : utf16loToMutf8 o ch = .ok o') :
    o'.out = o.out ++ Mutf8.encode ch := by
  have hiff : (ch ≠ 0 ∧ ch < 0x80) ↔ 1 ≤ ch.toNat ∧ ch.toNat ≤ 0x7f := by
    have hzero : ch = 0 ↔ ch.toNat = 0 := ⟨fun h => by rw [h]; rfl, fun h => UInt16.toNat_inj.mp h⟩
    have hlt : ch < 0x80 ↔ ch.toNat < 128 := UInt16.lt_iff_toNat_lt
    rw [Ne, hzero, hlt]
    omega
  unfold utf16loToMutf8 at h
  unfold Mutf8.encode
  by_cases hone : ch ≠ 0 ∧ ch < 0x80
  · rw [if_pos hone] at h
    rw [if_pos (hiff.mp hone), OutBuf.put_out h]
    rfl
  · rw [if_neg hone] at h
    obtain ⟨o₁, hlead, h⟩ := Res.bind_eq_ok.mp h
    rw [if_neg (mt hiff.mpr hone), if_pos hch, OutBuf.put_out h, OutBuf.put_out hlead, tail_byte,
      or_tag (k := 6) (n := 3) rfl (by rw [toNat_shift6]; omega), toNat_shift6, List.append_assoc]
    rfl

theorem utf16ToMutf8_out (h : utf16ToMutf8 o ch = .ok o') : o'.out = o.out ++ unitBytes ch := by
  have hlt : ch < 0x7ff ↔ ch.toNat < 0x7ff := UInt16.lt_iff_toNat_lt
  have heq : ch = 0x7ff ↔ ch.toNat = 0x7ff :=
    ⟨fun h => by rw [h]; rfl, fun h => UInt16.toNat_inj.mp h⟩
  have hu := ch.toNat_lt
  unfold utf16ToMutf8 at h
  unfold unitBytes
  by_cases hlo : ch < 0x7ff
  · have := hlt.mp hlo
    rw [if_pos hlo] at h
    rw [if_neg (by rw [heq]; omega)]
    exact utf16loToMutf8_out (by omega) h
  · rw [if_neg hlo] at h
    obtain ⟨o₁, hlead, h⟩ := Res.bind_eq_ok.mp h
    obtain ⟨o₂, hmid, h⟩ := Res.bind_eq_ok.mp h
    have hthree : o'.out = o.out ++ Mutf8.encode3 ch := by
      rw [OutBuf.put_out h, OutBuf.put_out hmid, OutBuf.put_out hlead, tail_byte, tail_byte,
        or_tag (k := 5) (n := 7) rfl (by rw [toNat_shift12]; omega), toNat_shift12, toNat_shift6]
      simp only [List.append_assoc]
      rfl
    rw [hthree]
    split
    · rfl
    · unfold Mutf8.encode
      have hne : ch.toNat ≠ 0x7ff := fun hc => ‹¬ ch = 0x7ff› (heq.mpr hc)
      have hge := mt hlt.mpr hlo
      rw [if_neg (by omega), if_neg (by omega)]

end

/-! ## Strings -/

section

variable {cs0 : Bytes} {o o' : OutBuf}

theorem cs0Loop8_out {n i : Nat} (hn : i + n = cs0.length) (h : cs0Loop8 cs0 n i o = .ok o') :
    o'.out = o.out ++ ((cs0.drop i).map UInt8.toUInt16).flatMap Mutf8.encode := by
  induction n generalizing i o with
  | zero =>
    cases h
    rw [List.drop_of_length_le (by omega)]
    simp
  | succ n ih =>
    rw [cs0Loop8, byteAt_eq (by omega), Res.ok_bind] at h
    obtain ⟨o₁, hunit, h⟩ := Res.bind_eq_ok.mp h
    have hget : cs0.getD i 0 = cs0[i] := by simp [List.getD_eq_getElem?_getD, show i < cs0.length by omega]
    have hlt := (cs0.getD i 0).toNat_lt
    have hone := utf16loToMutf8_out (by rw [UInt8.toNat_toUInt16]; omega) hunit
    rw [ih (by omega) h, hone, List.drop_eq_getElem_cons (i := i) (by omega), ← hget, List.append_assoc]
    rfl

theorem pair_unit (hi lo : UInt8) :
    lo.toUInt16 ||| (hi.toUInt16 <<< 8) = UInt16.ofNat (256 * hi.toNat + lo.toNat) := by
  have hl := lo.toNat_lt
  have hh := hi.toNat_lt
  apply UInt16.toNat_inj.mp
  rw [UInt16.toNat_or, UInt16.toNat_shiftLeft, UInt8.toNat_toUInt16, UInt8.toNat_toUInt16,
    UInt16.toNat_ofNat', show (8 : UInt16).toNat % 16 = 8 from rfl,
    Nat.mod_eq_of_lt (by rw [Nat.shiftLeft_eq]; omega), or_shift_eq _ _ 8 (by omega),
    Nat.mod_eq_of_lt (by omega)]
  omega

theorem cs0Loop16_out {n i : Nat} (hn : n = (cs0.length - i) / 2)
    (h : cs0Loop16 cs0 n i o = .ok o') :
    o'.out = o.out ++ (pairs (cs0.drop i)).flatMap unitBytes := by
  induction n generalizing i o with
  | zero =>
    cases h
    have hshort : (cs0.drop i).length ≤ 1 := by
      rw [List.length_drop]
      omega
    have hnone : pairs (cs0.drop i) = [] := by
      cases hd : cs0.drop i with
      | nil => rfl
      | cons b r =>
        cases r with
        | nil => rfl
        | cons c r => simp [hd] at hshort
    rw [hnone]
    simp
  | succ n ih =>
    rw [cs0Loop16, byteAt_eq (by omega), Res.ok_bind, byteAt_eq (by omega), Res.ok_bind] at h
    obtain ⟨o₁, hunit, h⟩ := Res.bind_eq_ok.mp h
    have hhi : cs0.getD i 0 = cs0[i] := by
      simp [List.getD_eq_getElem?_getD, show i < cs0.length by omega]
    have hlo : cs0.getD (i + 1) 0 = cs0[i + 1] := by
      simp [List.getD_eq_getElem?_getD, show i + 1 < cs0.length by omega]
    rw [ih (by omega) h, utf16ToMutf8_out hunit, pair_unit, List.drop_eq_getElem_cons (i := i) (by omega),
      List.drop_eq_getElem_cons (i := i + 1) (by omega), ← hhi, ← hlo, List.append_assoc]
    rfl

/-- A CS0 string with 8-bit or 16-bit units. -/
def Compressed (cs0 : Bytes) : Prop := cs0.head? = some 8 ∨ cs0.head? = some 16

theorem unitBytes_of_ne {u : UInt16} (h : u ≠ 0x7ff) : unitBytes u = Mutf8.encode u := if_neg h

theorem flatMap_congr_of_notMem {us : List UInt16} (h : 0x7ff ∉ us) :
    us.flatMap unitBytes = us.flatMap Mutf8.encode :=
  List.flatMap_congr fun _ hu => unitBytes_of_ne fun hc => h (hc ▸ hu)

/-- An 8-bit unit is not U+07FF. -/
theorem codeUnits_8 (h : cs0.head? = some 8) : 0x7ff ∉ codeUnits cs0 := by
  rw [codeUnits, if_pos h]
  intro hmem
  obtain ⟨b, -, hb⟩ := List.mem_map.mp hmem
  have hlt := b.toNat_lt
  have ht := congrArg UInt16.toNat hb
  rw [UInt8.toNat_toUInt16] at ht
  have hval : (0x7ff : UInt16).toNat = 2047 := rfl
  omega

/-- The conversion writes the units one after the other. -/
theorem udfCs0ToMutf8_eq (h : Compressed cs0) :
    udfCs0ToMutf8 cs0 = .ok (some ((codeUnits cs0).flatMap unitBytes)) := by
  obtain ⟨r, hr⟩ := udfCs0ToMutf8_ok cs0
  rw [hr]
  unfold udfCs0ToMutf8 at hr
  cases cs0 with
  | nil =>
    rcases h with h | h
    · cases h
    · cases h
  | cons id rest =>
    rw [if_neg (by simp), byteAt_eq (by simp), Res.ok_bind] at hr
    rcases h with h | h
    · have hid : id = 8 := Option.some.inj h
      subst hid
      obtain ⟨o, hloop, hr⟩ := Res.bind_eq_ok.mp ((if_pos rfl).symm.trans hr)
      obtain ⟨-, -, hr⟩ := Res.bind_eq_ok.mp hr
      cases hr
      rw [cs0Loop8_out (by simp; omega) hloop, flatMap_congr_of_notMem (codeUnits_8 rfl)]
      rfl
    · have hid : id = 16 := Option.some.inj h
      subst hid
      have hid : (16 :: rest : Bytes).getD 0 0 = 16 := rfl
      rw [hid, if_neg (by decide)] at hr
      obtain ⟨o, hloop, hr⟩ := Res.bind_eq_ok.mp ((if_pos rfl).symm.trans hr)
      obtain ⟨-, -, hr⟩ := Res.bind_eq_ok.mp hr
      cases hr
      rw [cs0Loop16_out rfl hloop]
      rfl

theorem unitBytes_ne_nil (u : UInt16) : unitBytes u ≠ [] := by
  unfold unitBytes
  split
  · simp [Mutf8.encode3]
  · exact Mutf8.encode_ne_nil u

theorem readUnit_unitBytes (u : UInt16) (rest : Bytes) :
    Mutf8.readUnit (unitBytes u ++ rest) = some (u, rest) := by
  unfold unitBytes
  split
  · exact Mutf8.readUnit_encode3 u rest
  · exact Mutf8.readUnit_encode u rest

theorem zero_notMem_unitBytes (u : UInt16) : 0 ∉ unitBytes u := by
  unfold unitBytes
  split
  · exact Mutf8.zero_notMem_encode3 u
  · exact Mutf8.zero_notMem_encode u

theorem decode_encoded (us : List UInt16) : Mutf8.decode (us.flatMap Mutf8.encode) = some us :=
  Mutf8.readAll_flatMap Mutf8.encode_ne_nil (fun u _ => Mutf8.readStrict_encode u)
    (Mutf8.length_le_flatMap Mutf8.encode_ne_nil us)

/-- The standard decoder rejects the three bytes written for U+07FF. -/
theorem decode_unitBytes {us : List UInt16} (h : 0x7ff ∈ us) :
    Mutf8.decode (us.flatMap unitBytes) = none := by
  refine Mutf8.readAll_none unitBytes_ne_nil (fun v hv rest => ?_) (fun rest => ?_) h _
  · rw [unitBytes_of_ne hv]
    exact Mutf8.readStrict_encode v rest
  · exact Mutf8.readStrict_encode3 (by decide) rest

/-- The result is the Modified UTF-8 of the code units, and the standard decoder gives them back,
exactly if U+07FF is not among them. -/
theorem udfCs0ToMutf8_mutf8_iff (cs0 : Bytes) (h : Compressed cs0) :
    ∃ out, udfCs0ToMutf8 cs0 = .ok (some out) ∧
      (out = (codeUnits cs0).flatMap Mutf8.encode ↔ 0x7ff ∉ codeUnits cs0) ∧
      (Mutf8.decode out = some (codeUnits cs0) ↔ 0x7ff ∉ codeUnits cs0) := by
  refine ⟨_, udfCs0ToMutf8_eq h, ⟨fun hout hmem => ?_, fun hmem => flatMap_congr_of_notMem hmem⟩,
    fun hout hmem => ?_, fun hmem => ?_⟩
  · have hnone := decode_unitBytes hmem
    rw [hout, decode_encoded] at hnone
    cases hnone
  · rw [decode_unitBytes hmem] at hout
    cases hout
  · rw [flatMap_congr_of_notMem hmem]
    exact decode_encoded _

theorem udfCs0ToMutf8_mutf8_iff_short :
    ∃ out, udfCs0ToMutf8 [16, 8, 0] = .ok (some out) ∧
      (out = (codeUnits [16, 8, 0]).flatMap Mutf8.encode ↔ 0x7ff ∉ codeUnits [16, 8, 0]) ∧
      (Mutf8.decode out = some (codeUnits [16, 8, 0]) ↔ 0x7ff ∉ codeUnits [16, 8, 0]) :=
  udfCs0ToMutf8_mutf8_iff [16, 8, 0] (.inr rfl)

theorem udfCs0ToMutf8_overlong :
    codeUnits [16, 7, 255] = [0x7ff] ∧
      udfCs0ToMutf8 [16, 7, 255] = .ok (some [0xe0, 0x9f, 0xbf]) ∧
      [0x7ff].flatMap Mutf8.encode = [0xdf, 0xbf] ∧ Mutf8.decode [0xe0, 0x9f, 0xbf] = none := by
  decide

/-! ## Different names stay different -/

/-- Two names have the same C string exactly if they have the same code units. -/
theorem flatMap_unitBytes_inj {us vs : List UInt16} :
    us.flatMap unitBytes = vs.flatMap unitBytes ↔ us = vs :=
  ⟨Mutf8.flatMap_injective unitBytes_ne_nil readUnit_unitBytes, congrArg _⟩

theorem zero_notMem_name (us : List UInt16) : 0 ∉ us.flatMap unitBytes := by
  rw [List.mem_flatMap]
  rintro ⟨u, -, h⟩
  exact zero_notMem_unitBytes u h

theorem cString_of_notMem {s : Bytes} (h : 0 ∉ s) : cString s = s := by
  unfold cString
  rw [List.takeWhile_eq_self_iff]
  intro b hb
  exact decide_eq_true fun hc => h (hc ▸ hb)

/-- The identifiers that decode one after the other from index `p` on. -/
inductive Identifiers (data : Bytes) (length : Nat) : (p : Nat) → List FileIdentifier → Prop where
  | stop (p : Nat) : Identifiers data length p []
  | next {p used : Nat} {fid : FileIdentifier} {fids : List FileIdentifier} :
      p + 16 < length → decodeDescriptorTag data p = .ok .fileIdentifierDescriptor →
      decodeFileIdentifier data p (length - p) = .ok (some (fid, used)) →
      Identifiers data length (p + used) fids → Identifiers data length p (fid :: fids)

/-- The identifiers that become entries. -/
def listed (fids : List FileIdentifier) : List FileIdentifier :=
  fids.filter fun fid => (listedEntry fid).isSome

theorem parseDirLoop_identifiers {data : Bytes} {length fuel p : Nat} {r : Int}
    {dir entries : List UdfFileIdentifier}
    (h : parseDirLoop data length fuel p dir = .ok (r, entries)) :
    ∃ fids, Identifiers data length p fids ∧ entries = dir ++ fids.filterMap listedEntry := by
  induction fuel generalizing p dir with
  | zero => cases h
  | succ fuel ih =>
    have hstop : ∀ r', (.ok (r', dir) : Res (Int × List UdfFileIdentifier)) = .ok (r, entries) →
        ∃ fids, Identifiers data length p fids ∧ entries = dir ++ fids.filterMap listedEntry := by
      intro r' heq
      cases heq
      exact ⟨[], .stop p, by simp⟩
    rw [parseDirLoop] at h
    by_cases hp : p + 16 < length
    · rw [if_neg (not_not_intro hp)] at h
      split at h
      · exact hstop _ h
      · obtain ⟨tag, htag, h⟩ := Res.bind_eq_ok.mp h
        split at h
        · exact hstop _ h
        · rename_i hfid
          rw [not_not.mp hfid] at htag
          obtain ⟨d, hdec, h⟩ := Res.bind_eq_ok.mp h
          cases d with
          | none => exact hstop _ h
          | some d =>
            obtain ⟨fid, used⟩ := d
            simp only [dirEntryOf_eq, Res.ok_bind] at h
            cases hentry : listedEntry fid with
            | none =>
              rw [hentry] at h
              obtain ⟨fids, hids, hall⟩ := ih h
              exact ⟨fid :: fids, .next hp htag hdec hids, by simp [hall, hentry]⟩
            | some entry =>
              rw [hentry] at h
              obtain ⟨fids, hids, hall⟩ := ih h
              exact ⟨fid :: fids, .next hp htag hdec hids, by simp [hall, hentry]⟩
    · rw [if_pos hp] at h
      exact hstop _ h

theorem listed_getElem? (fids : List FileIdentifier) (i : Nat) :
    (fids.filterMap listedEntry)[i]? = (listed fids)[i]?.bind listedEntry := by
  unfold listed
  induction fids generalizing i with
  | nil => rfl
  | cons fid fids ih =>
    cases hentry : listedEntry fid with
    | none => simpa [hentry] using ih i
    | some entry =>
      cases i with
      | zero => simp [hentry]
      | succ i => simpa [hentry] using ih i

theorem listedEntry_some {fid : FileIdentifier} {entry : UdfFileIdentifier}
    (h : listedEntry fid = some entry) :
    entry.filename = (codeUnits fid.filename).flatMap unitBytes ∧
      entry.characteristic &&& charFlagParent = 0 := by
  unfold listedEntry at h
  split at h
  · cases h
  · rename_i hkeep
    push Not at hkeep
    split at h
    · rename_i name hname
      have hcompressed : Compressed fid.filename := by
        unfold udfCs0ToMutf8 at hname
        have hpos := List.length_pos_iff.mpr hkeep.2
        rw [if_neg (by omega), byteAt_eq hpos, Res.ok_bind] at hname
        have hhead : fid.filename.head? = some (fid.filename.getD 0 0) := by
          cases hf : fid.filename with
          | nil => exact absurd hf hkeep.2
          | cons b r => rfl
        unfold Compressed
        rw [hhead]
        by_cases h8 : fid.filename.getD 0 0 = 8
        · exact .inl (congrArg some h8)
        · by_cases h16 : fid.filename.getD 0 0 = 16
          · exact .inr (congrArg some h16)
          · rw [if_neg h8, if_neg h16] at hname
            cases hname
      rw [udfCs0ToMutf8_eq hcompressed] at hname
      split at h
      · cases h
      · cases h
        exact ⟨(Option.some.inj (Except.ok.inj hname)).symm, hkeep.1⟩
    · cases h

/-- The name of the entry finds it, unless an earlier one has the same code units. -/
theorem scanDir_listed {fids : List FileIdentifier} {i : Nat} {fid : FileIdentifier}
    {entry : UdfFileIdentifier} (hfid : (listed fids)[i]? = some fid)
    (hentry : (fids.filterMap listedEntry)[i]? = some entry)
    (hfirst : ∀ j fid', j < i → (listed fids)[j]? = some fid' →
      codeUnits fid'.filename ≠ codeUnits fid.filename) :
    scanDir (fids.filterMap listedEntry) entry.filename = some i := by
  have hname : ∀ (j : Nat) (fid' : FileIdentifier) (entry' : UdfFileIdentifier),
      (listed fids)[j]? = some fid' →
      (fids.filterMap listedEntry)[j]? = some entry' →
      entry'.filename = (codeUnits fid'.filename).flatMap unitBytes ∧
        cString entry'.filename = entry'.filename := by
    intro j fid' entry' hf he
    rw [listed_getElem?, hf, Option.bind_some] at he
    obtain ⟨hunits, -⟩ := listedEntry_some he
    rw [hunits]
    exact ⟨rfl, cString_of_notMem (zero_notMem_name _)⟩
  obtain ⟨hi, hget⟩ := List.getElem?_eq_some_iff.mp hentry
  obtain ⟨hunits, hstring⟩ := hname i fid entry hfid hentry
  unfold scanDir
  rw [List.findIdx?_eq_some_iff_getElem]
  refine ⟨hi, by simp [hget], fun j hj => ?_⟩
  have hj' : j < (fids.filterMap listedEntry).length := by omega
  have hjentry := List.getElem?_eq_getElem hj'
  have hjfid := listed_getElem? fids j
  cases hlj : (listed fids)[j]? with
  | none =>
    rw [hlj, hjentry] at hjfid
    cases hjfid
  | some fid' =>
    obtain ⟨hunits', hstring'⟩ := hname j fid' _ hlj hjentry
    rw [hstring, hstring', hunits, hunits', beq_iff_eq, flatMap_unitBytes_inj]
    exact Ne.symm (hfirst j fid' hj hlj)

/-- Names are equal as C strings exactly if their code units are; and the name that
`udfread_readdir` returns finds its entry, unless an earlier one has the same code units. -/
theorem listed_names_found {a b data : Bytes} {length : UInt32} {r : Int}
    {entries : List UdfFileIdentifier} (ha : Compressed a) (hb : Compressed b)
    (hparse : parseDirFile data length [] = .ok (r, entries)) :
    (∃ x y, udfCs0ToMutf8 a = .ok (some x) ∧ udfCs0ToMutf8 b = .ok (some y) ∧
      (cString x = cString y ↔ codeUnits a = codeUnits b) ∧ 0 ∉ x ∧ 0 ∉ y) ∧
    ∃ fids, Identifiers data length.toNat 0 fids ∧ entries = fids.filterMap listedEntry ∧
      ∀ udf p d name isDir p', udf.dirs[p.dir]? = some d → d.entries = entries →
        udfreadReaddir udf p = .ok (some (name, isDir), p') →
        ∃ fid, (listed fids)[p.currentFile]? = some fid ∧
          ((∀ j fid', j < p.currentFile → (listed fids)[j]? = some fid' →
            codeUnits fid'.filename ≠ codeUnits fid.filename) →
          scanDir d.entries name = some p.currentFile) := by
  refine ⟨⟨_, _, udfCs0ToMutf8_eq ha, udfCs0ToMutf8_eq hb, ?_, zero_notMem_name _,
    zero_notMem_name _⟩, ?_⟩
  · rw [cString_of_notMem (zero_notMem_name _), cString_of_notMem (zero_notMem_name _)]
    exact flatMap_unitBytes_inj
  · obtain ⟨fids, hids, hall⟩ : ∃ fids, Identifiers data length.toNat 0 fids ∧
        entries = fids.filterMap listedEntry := by
      unfold parseDirFile at hparse
      split at hparse
      · cases hparse
        exact ⟨[], .stop 0, rfl⟩
      · simpa using parseDirLoop_identifiers hparse
    refine ⟨fids, hids, hall, fun udf p d name isDir p' hd hentries hread => ?_⟩
    rw [hall] at hentries
    unfold udfreadReaddir at hread
    rw [hd] at hread
    simp only at hread
    cases hentry : d.entries[p.currentFile]? with
    | none =>
      rw [hentry] at hread
      cases hread
    | some entry =>
      rw [hentry] at hread
      rw [hentries] at hentry ⊢
      have hfid := listed_getElem? fids p.currentFile
      rw [hentry] at hfid
      obtain ⟨fid, hget, hlist⟩ := Option.bind_eq_some_iff.mp hfid.symm
      have hparent := (listedEntry_some hlist).2
      simp only [hparent, ne_eq, not_true, if_false] at hread
      cases hread
      exact ⟨fid, hget, fun hfirst => scanDir_listed hget hentry hfirst⟩

end

/-- A directory with the files `a`, by 8-bit units, and `b`, by 16-bit units. -/
def twoFilesDir : Bytes :=
  [1, 1, 0, 0, 2] ++ List.replicate 13 0 ++ [0, 2, 0, 8, 0, 0, 2] ++ List.replicate 13 0 ++
    [8, 0x61] ++ [1, 1, 0, 0, 2] ++ List.replicate 13 0 ++ [0, 3, 0, 8, 0, 0, 3] ++
    List.replicate 13 0 ++ [16, 0, 0x62, 0, 0, 0]

def twoFiles : List UdfFileIdentifier :=
  [{ filename := [0x61], characteristic := 0,
     icb := { lba := 2, length := 2048, partition := 0, extentType := 0 } },
   { filename := [0x62], characteristic := 0,
     icb := { lba := 3, length := 2048, partition := 0, extentType := 0 } }]

theorem twoFilesDir_parse : parseDirFile twoFilesDir 84 [] = .ok (0, twoFiles) := by
  decide +kernel

theorem listed_names_found_twoFiles :
    (∃ x y, udfCs0ToMutf8 [8, 0x61] = .ok (some x) ∧ udfCs0ToMutf8 [16, 0, 0x61] = .ok (some y) ∧
      (cString x = cString y ↔ codeUnits [8, 0x61] = codeUnits [16, 0, 0x61]) ∧ 0 ∉ x ∧ 0 ∉ y) ∧
    ∃ fids, Identifiers twoFilesDir (84 : UInt32).toNat 0 fids ∧
      twoFiles = fids.filterMap listedEntry ∧
      ∀ udf p d name isDir p', udf.dirs[p.dir]? = some d → d.entries = twoFiles →
        udfreadReaddir udf p = .ok (some (name, isDir), p') →
        ∃ fid, (listed fids)[p.currentFile]? = some fid ∧
          ((∀ j fid', j < p.currentFile → (listed fids)[j]? = some fid' →
            codeUnits fid'.filename ≠ codeUnits fid.filename) →
          scanDir d.entries name = some p.currentFile) :=
  listed_names_found (.inl rfl) (.inr rfl) twoFilesDir_parse

end UdfRead
