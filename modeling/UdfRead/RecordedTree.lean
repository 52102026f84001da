import UdfRead.DeletedEntries
import UdfRead.EntryEncoding
import UdfRead.Udfcat

/-!
# UdfRead.RecordedTree

A directory tree on an image, in terms of its encoding only. A file entry is of either kind, with
the content inside of it or in extents, and the extents in any of the three descriptor formats and
split over any chain of allocation extents. A directory is in the entry or in one extent. Its
identifiers have any implementation use fields and padding, and names in either compression.

Reading gives what is recorded: the listing of a directory (`StoresDir.lists`) and the content of a
file (`StoresFile.read`).
-/

namespace UdfRead

open CModel Extents

/-! ## Trees -/

/-- A name as the library gives it out. -/
def shownName (name : List UInt16) : Bytes := name.flatMap unitBytes

/-- The entries of a directory in their order, with all that is below them. A name is a sequence of
code units. -/
inductive DirTree where
  | nil
  | file (name : List UInt16) (content : Bytes) (rest : DirTree)
  | directory (name : List UInt16) (below rest : DirTree)
  deriving DecidableEq, Repr

namespace DirTree

def names : DirTree → List (List UInt16)
  | nil => []
  | file name _ rest => name :: rest.names
  | directory name _ rest => name :: rest.names

/-- The content of the file at a path. -/
def contentAt : DirTree → (path : List Bytes) → Option Bytes
  | _, [] => none
  | nil, _ => none
  | file name content rest, path =>
    if path = [shownName name] then some content else rest.contentAt path
  | directory name below rest, first :: path =>
    if first = shownName name then below.contentAt path else rest.contentAt (first :: path)

end DirTree

/-- A name that may stand in a directory. -/
def ProperName (name : List UInt16) : Prop := name ≠ [] ∧ name ≠ [0x2e] ∧ name ≠ [0x2e, 0x2e]

instance (name : List UInt16) : Decidable (ProperName name) :=
  inferInstanceAs (Decidable (_ ∧ _))

/-- The names are proper, no directory has one twice, and no file needs block number 2^32 - 1. -/
def DirTree.Proper : DirTree → Prop
  | nil => True
  | file name content rest =>
    ProperName name ∧ name ∉ rest.names ∧ content.length ≤ (2 ^ 32 - 1) * 2048 ∧ rest.Proper
  | directory name below rest =>
    ProperName name ∧ name ∉ rest.names ∧ below.Proper ∧ rest.Proper

/-! ## Their encoding -/

/-- The block `p` encodes a file entry with the content inside. -/
structure RecordsInline (kind : EntryKind) (p : Bytes) (fileType : UInt8) (content : Bytes) :
    Prop where
  block : 2048 ≤ p.length
  tag : tagAt p 0 = kind.tag
  strategy : leVal p 20 2 = 4
  fileType : leVal p 27 1 = fileType.toNat
  flags : leVal p 34 2 % 8 = 3
  length : leVal p 56 8 = content.length
  lAd : leVal p kind.lAdAt 4 = content.length
  fits : kind.header + leVal p kind.lEaAt 4 + content.length ≤ 2048
  content : (p.drop (kind.header + leVal p kind.lEaAt 4)).take content.length = content

/-- The blocks of the extents hold the content, with zeros where none is allocated. -/
def StoresBlocks (image : Image) (start : UInt32) (ads : List LongAd) (content : Bytes) : Prop :=
  ∀ x, x < content.length →
    let lba := (flatten adBlocks (adSlot start) ads).getD (x / 2048) 0
    if lba = 0 then content.getD x 0 = 0
    else ∃ data, image lba = some data ∧ content.getD x 0 = data (x % 2048)

/-- The file at an ICB has the content. -/
inductive StoresFile (image : Image) (part : UdfPartitions) (icb : LongAd) (content : Bytes) :
    Prop where
  | inline {kind : EntryKind} {p : Bytes} {fileType : UInt8} :
      Placed (faultFree image) part icb p → RecordsInline kind p fileType content →
      StoresFile image part icb content
  | extents {kind : EntryKind} {t : AdType} {p : Bytes} {length : UInt64} {fileType : UInt8}
      {ads : List LongAd} {hops : List Hop} : Placed (faultFree image) part icb p →
      RecordsEntry kind t icb.partition p length fileType (recorded ads hops) →
      RecordsChain (faultFree image) part t hops → Plain (chainAds ads hops) →
      Counted ads hops → length.toNat = content.length →
      StoresBlocks image part.p0.lba (chainAds ads hops) content →
      StoresFile image part icb content

/-- The directory at an ICB consists of the encoded identifiers. -/
inductive StoresDir (image : Image) (part : UdfPartitions) (icb : LongAd)
    (rs : List (FileIdentifier × Bytes)) : Prop where
  | inline {kind : EntryKind} {p : Bytes} : (∀ r ∈ rs, EncodesFid r.1 r.2) →
      Placed (faultFree image) part icb p → RecordsInline kind p fileTypeDir (dirBytes rs) →
      StoresDir image part icb rs
  | extent {kind : EntryKind} {t : AdType} {p buf : Bytes} {length : UInt64} {ad : LongAd} :
      (∀ r ∈ rs, EncodesFid r.1 r.2) → Placed (faultFree image) part icb p →
      RecordsEntry kind t icb.partition p length fileTypeDir [ad] →
      ad.extentType ≠ LongAd.extentAd → Placed (faultFree image) part ad buf →
      ad.length.toNat = (dirBytes rs).length → buf.take (dirBytes rs).length = dirBytes rs →
      StoresDir image part icb rs

/-- The identifier stands for something in the directory, under the name. -/
structure FileIdentifier.Names (d : FileIdentifier) (name : List UInt16) : Prop where
  live : ¬ d.Deleted
  notParent : d.characteristic &&& charFlagParent = 0
  compressed : Compressed d.filename
  units : codeUnits d.filename = name

/-- The identifiers of a directory record its entries, with all that is below. -/
inductive Records (image : Image) (part : UdfPartitions) :
    List (FileIdentifier × Bytes) → DirTree → Prop where
  | nil : Records image part [] .nil
  | parent {r : FileIdentifier × Bytes} {rs : List (FileIdentifier × Bytes)} {tree : DirTree} :
      r.1.characteristic &&& charFlagParent ≠ 0 → Records image part rs tree →
      Records image part (r :: rs) tree
  | file {r : FileIdentifier × Bytes} {rs : List (FileIdentifier × Bytes)} {tree : DirTree}
      {name : List UInt16} {content : Bytes} : r.1.Names name →
      r.1.characteristic &&& charFlagDir = 0 → StoresFile image part r.1.icb content →
      Records image part rs tree → Records image part (r :: rs) (.file name content tree)
  | directory {r : FileIdentifier × Bytes} {rs sub : List (FileIdentifier × Bytes)}
      {tree below : DirTree} {name : List UInt16} : r.1.Names name →
      r.1.characteristic &&& charFlagDir ≠ 0 → StoresDir image part r.1.icb sub →
      Records image part sub below → Records image part rs tree →
      Records image part (r :: rs) (.directory name below tree)

/-! ## Listings -/

/-- The entry of an identifier with the name. -/
def FileIdentifier.entry (d : FileIdentifier) (name : List UInt16) : UdfFileIdentifier where
  filename := shownName name
  icb := d.icb
  characteristic := d.characteristic

/-- What is listed of the identifiers. -/
def listingOf (rs : List (FileIdentifier × Bytes)) : List UdfFileIdentifier :=
  rs.filterMap fun r => listedEntry r.1

section

variable {image : Image} {part : UdfPartitions} {icb : LongAd} {rs : List (FileIdentifier × Bytes)}
  {r : FileIdentifier × Bytes} {d : FileIdentifier} {name name' : List UInt16} {tree : DirTree}
  {kind : EntryKind} {p data content : Bytes} {fileType : UInt8}

theorem shownName_inj : shownName name = shownName name' ↔ name = name' := flatMap_unitBytes_inj

namespace DirTree

variable {first : Bytes} {path : List Bytes}

theorem contentAt_nil (tree : DirTree) : tree.contentAt [] = none := by
  cases tree <;> rfl

theorem contentAt_file (name : List UInt16) (content : Bytes) (rest : DirTree) :
    (file name content rest).contentAt (first :: path) =
      if first :: path = [shownName name] then some content else rest.contentAt (first :: path) :=
  rfl

theorem contentAt_directory (name : List UInt16) (below rest : DirTree) :
    (directory name below rest).contentAt (first :: path) =
      if first = shownName name then below.contentAt path else rest.contentAt (first :: path) :=
  rfl

theorem contentAt_notMem (h : name ∉ tree.names) :
    tree.contentAt (shownName name :: path) = none := by
  induction tree with
  | nil => rfl
  | file name' stored rest ih =>
    obtain ⟨hne, hrest⟩ : name ≠ name' ∧ name ∉ rest.names := by simpa [names] using h
    rw [contentAt_file, if_neg (fun heq => hne (shownName_inj.mp (List.cons.inj heq).1)), ih hrest]
  | directory name' below rest _ ih =>
    obtain ⟨hne, hrest⟩ : name ≠ name' ∧ name ∉ rest.names := by simpa [names] using h
    rw [contentAt_directory, if_neg (fun heq => hne (shownName_inj.mp heq)), ih hrest]

end DirTree

theorem cString_shownName (name : List UInt16) : cString (shownName name) = shownName name :=
  cString_of_notMem (zero_notMem_name name)

theorem listedEntry_names (h : d.Names name) (hne : name ≠ []) :
    listedEntry d = some (d.entry name) := by
  have hname : d.filename ≠ [] := by
    intro hnil
    have hc := h.compressed
    rw [hnil] at hc
    rcases hc with hc | hc
    · cases hc
    · cases hc
  have hshown : ¬ (shownName name = [] ∨ (shownName name).head? = some 0) := by
    rintro (hnil | hzero)
    · exact hne (shownName_inj.mp (hnil.trans rfl))
    · exact zero_notMem_name name (List.mem_of_mem_head? hzero)
  have hnot : ¬ (d.characteristic &&& charFlagParent ≠ 0 ∨ d.filename = []) := by
    rintro (hp | hn)
    · exact hp h.notParent
    · exact hname hn
  rw [listedEntry, if_neg hnot, udfCs0ToMutf8_eq h.compressed, h.units]
  exact if_neg hshown

/-! ### Directories -/

theorem fidAt_take {n offset : Nat} (hfit : fidSize data offset ≤ n - offset)
    (hsize : fidSize (data.take n) offset = fidSize data offset) :
    fidAt (data.take n) offset = fidAt data offset := by
  have h38 := fidSize_ge data offset
  have hval : ∀ {i w : Nat}, i + w ≤ n → leVal (data.take n) i w = leVal data i w := by
    intro i w hi
    have h := (agrees_take (le_refl n) : Agrees (data.take n) 0 data n).leVal hi
    rwa [Nat.zero_add] at h
  have huse : useLengthAt (data.take n) offset = useLengthAt data offset := hval (by omega)
  have hname : nameLengthAt (data.take n) offset = nameLengthAt data offset := hval (by omega)
  have hicb : adAt .long (data.take n) 0 (offset + 20) = adAt .long data 0 (offset + 20) := by
    simp (disch := omega) only [adAt, AdType.lbaAt, AdType.partitionAt, hval]
  have hchar : leVal (data.take n) (offset + 18) 1 = leVal data (offset + 18) 1 :=
    hval (by omega)
  rw [fidAt, fidAt, huse, hname, hicb, hchar, List.drop_take, List.take_take, Nat.min_eq_left]
  unfold fidSize at hfit
  omega

/-- What stands behind the end of a directory is not looked at. -/
theorem parseDirLoop_take {n fuel offset : Nat} {dir : List UdfFileIdentifier}
    (hn : n ≤ data.length) :
    parseDirLoop (data.take n) n fuel offset dir = parseDirLoop data n fuel offset dir := by
  have hlen : (data.take n).length = n := by rw [List.length_take, Nat.min_eq_left hn]
  induction fuel generalizing offset dir with
  | zero => rfl
  | succ fuel ih =>
    rw [parseDirLoop, parseDirLoop]
    by_cases hloop : offset + 16 < n
    · have hagree : ∀ k, k < n - offset →
          (data.take n).getD (offset + k) 0 = (data.drop offset).getD k 0 := by
        intro k hk
        rw [List.getD_eq_getElem?_getD, List.getD_eq_getElem?_getD,
          List.getElem?_take_of_lt (by omega), List.getElem?_drop]
      have hagree' : Agrees data offset (data.drop offset) (n - offset) := by
        intro k _
        rw [List.getD_eq_getElem?_getD, List.getD_eq_getElem?_getD, List.getElem?_drop]
      rw [decodeDescriptorTag_eq (by omega), decodeDescriptorTag_eq (by omega),
        agrees_tag hagree (by omega), ← agrees_tag hagree' (by omega),
        decodeFileIdentifier_eq (by omega), decodeFileIdentifier_eq (by omega)]
      by_cases h38 : 38 ≤ n - offset
      · have hsize : fidSize (data.take n) offset = fidSize data offset := by
          rw [fidSize_encoded hagree h38, ← fidSize_encoded hagree' h38]
        rw [hsize]
        by_cases hfit : fidSize data offset ≤ n - offset
        · rw [fidAt_take hfit hsize]
          simp only [ih]
        · simp only [hfit, if_false, Res.ok_bind]
      · have hcut : ¬ fidSize (data.take n) offset ≤ n - offset := by
          have := fidSize_ge (data.take n) offset
          omega
        have hcut' : ¬ fidSize data offset ≤ n - offset := by
          have := fidSize_ge data offset
          omega
        simp only [hcut, hcut', if_false, Res.ok_bind]
    · rw [if_pos hloop, if_pos hloop]

/-- Parsing the encoded identifiers, with anything behind them. -/
theorem parseDirFile_stored (hrs : ∀ r ∈ rs, EncodesFid r.1 r.2) {length : UInt32}
    (hlength : length.toNat = (dirBytes rs).length)
    (hdata : data.take (dirBytes rs).length = dirBytes rs) :
    parseDirFile data length [] = .ok (0, listingOf rs) := by
  have hle : (dirBytes rs).length ≤ data.length := by
    have h := congrArg List.length hdata
    rw [List.length_take] at h
    omega
  have hlt := length.toNat_lt
  have hall := parseDirFile_all hrs (by omega)
  rw [← hlength, UInt32.ofNat_toNat, parseDirFile] at hall
  rw [parseDirFile]
  split
  · rename_i h16
    rwa [if_pos h16] at hall
  · rename_i h16
    rw [if_neg h16] at hall
    rw [← parseDirLoop_take (by omega), hlength, hdata, ← hlength]
    exact hall

/-! ### Content inside of the entry -/

theorem readEntryBlock_inline {σ : Type} {I : BlockInput σ} (hplaced : Placed I part icb p)
    (h : RecordsInline kind p fileType content) :
    Proc.Returns (readEntryBlock I part icb) fun r =>
      r = some { length := UInt64.ofNat content.length, fileType, u := .data content } := by
  have hfits := h.fits
  have htag : tagAt p 0 ≠ .invalid := by
    rw [h.tag]
    cases kind <;> decide
  have hentry : entryAt p icb.partition (kind.header + leVal p kind.lEaAt 4)
      (leVal p kind.lAdAt 4) =
        some { length := UInt64.ofNat content.length, fileType, u := .data content } := by
    rw [entryAt, if_pos h.strategy, h.flags, contentAt, h.lAd, h.content, h.length, h.fileType,
      UInt8.ofNat_toNat]
    rfl
  rw [← h.lAd] at hfits
  refine (readMetadata_placed hplaced htag).bind fun r hr => ?_
  subst hr
  simp only [h.tag]
  cases kind with
  | fileEntry =>
    refine (Proc.returns_ofRes (decodeFileEntry_eq h.block)).mono fun r hr => ?_
    rw [hr]
    exact (if_pos hfits).trans hentry
  | extFileEntry =>
    refine (Proc.returns_ofRes (decodeExtFileEntry_eq h.block)).mono fun r hr => ?_
    rw [hr]
    exact (if_pos hfits).trans hentry

theorem udfReadFileEntry_inline (hplaced : Placed (faultFree image) part icb p)
    (h : RecordsInline kind p fileType content) :
    udfReadFileEntry (faultFree image) 1 part icb () =
      .ok (some { length := UInt64.ofNat content.length, fileType, u := .data content }, ()) := by
  obtain ⟨r, ⟨⟩, hblock, rfl⟩ := readEntryBlock_inline hplaced h ()
  have hchain : readFileEntryChain (faultFree image) 1 part icb () =
      .ok (some ({ length := UInt64.ofNat content.length, fileType, u := .data content },
        .complete), ()) := by
    rw [readFileEntryChain, Proc.bind_of_ok hblock]
    rfl
  exact Proc.bind_of_ok hchain

/-! ### What is read -/

/-- A stored directory has the listing of its identifiers. -/
theorem StoresDir.lists (h : StoresDir image part icb rs) :
    Lists image part icb (listingOf rs) := by
  cases h with
  | @inline kind p hrs hplaced hentry =>
    have hfits := hentry.fits
    refine ⟨1, 0, ?_, le_rfl⟩
    have hlen : (UInt32.ofNat (dirBytes rs).length).toNat = (dirBytes rs).length := by
      rw [UInt32.toNat_ofNat', Nat.mod_eq_of_lt (by omega)]
    rw [udfReadDir, Proc.bind_of_ok (udfReadFileEntry_inline hplaced hentry)]
    simp only [readDirOf]
    rw [if_neg (not_not_intro rfl), parseDirFile_stored hrs hlen (List.take_length)]
    rfl
  | @extent kind t p buf length ad hrs hplaced hentry hplain hbuf hlen hdata =>
    have hentry' : RecordsEntry kind t icb.partition p length fileTypeDir (recorded [ad] []) :=
      hentry
    have hplain' : Plain (chainAds [ad] []) := by
      intro d hd
      rw [List.mem_singleton.mp hd]
      exact hplain
    have hcount : Counted [ad] [] := by simp [Counted, endPointer, chainAds]
    obtain ⟨fuel, ⟨⟩, hread⟩ := udfReadFileEntry_counted hplaced hentry' trivial hplain' hcount ()
    have htag : tagAt buf 0 ≠ .invalid := by
      cases rs with
      | nil =>
        have hone := hbuf.nonempty
        rw [hlen] at hone
        cases hone
      | cons r rs =>
        have hr := hrs r (List.mem_cons_self ..)
        have hsize := fidSize_ge r.2 0
        have hpad := le_padded (fidSize r.2 0)
        rw [← hr.length] at hpad
        have hagree : Agrees buf 0 r.2 16 := by
          intro k hk
          have hget : buf[k]? = r.2[k]? := by
            have h := congrArg (·[k]?) hdata
            simp only [dirBytes_cons, List.length_append] at h
            rwa [List.getElem?_take_of_lt (by omega), List.getElem?_append_left (by omega)] at h
          rw [Nat.zero_add, List.getD_eq_getElem?_getD, List.getD_eq_getElem?_getD, hget]
        rw [tagAt_encoded hr hagree le_rfl]
        decide
    obtain ⟨r, ⟨⟩, hmeta, rfl⟩ := readMetadata_placed hbuf htag ()
    refine ⟨fuel, 0, ?_, le_rfl⟩
    rw [udfReadDir, Proc.bind_of_ok hread]
    simp only [readDirOf]
    rw [if_neg (not_not_intro rfl)]
    show readDirFile (faultFree image) part ad [] () = _
    rw [readDirFile, Proc.bind_of_ok hmeta]
    simp only
    rw [parseDirFile_stored hrs hlen hdata]
    rfl

theorem recordsAds_bound {t : AdType} {partition : UInt16} {i : Nat} {ds : List LongAd}
    (h : RecordsAds t partition p i ds) : ∀ ad ∈ ds, ad.length.toNat < 2 ^ 30 := by
  induction ds generalizing i with
  | nil => simp
  | cons d ds ih =>
    intro ad had
    rcases List.mem_cons.mp had with rfl | had
    · exact h.1.bound
    · exact ih h.2 ad had

theorem mem_recorded {ads : List LongAd} {hops : List Hop} {ad : LongAd} (h : ad ∈ ads) :
    ad ∈ recorded ads hops := by
  cases hops with
  | nil => exact h
  | cons hop rest => exact List.mem_append_left _ h

theorem chainAds_bound {σ : Type} {I : BlockInput σ} {t : AdType} {ads : List LongAd}
    {hops : List Hop} (hads : ∀ ad ∈ ads, ad.length.toNat < 2 ^ 30)
    (hchain : RecordsChain I part t hops) :
    ∀ ad ∈ chainAds ads hops, ad.length.toNat < 2 ^ 30 := by
  induction hops generalizing ads with
  | nil => simpa [chainAds] using hads
  | cons hop rest ih =>
    obtain ⟨⟨-, -, hext, -⟩, hrest⟩ := hchain
    intro ad had
    rw [chainAds_cons, List.mem_append] at had
    rcases had with had | had
    · exact hads ad had
    · exact ih (fun ad had => recordsAds_bound hext.ads ad (mem_recorded had)) hrest ad had

/-- Reading the entry of a stored file gives the content, of which no block is lost. -/
theorem StoresFile.read (h : StoresFile image part icb content)
    (hlen : content.length ≤ (2 ^ 32 - 1) * 2048) :
    ∃ fuel fe, udfReadFileEntry (faultFree image) fuel part icb () = .ok (some fe, ()) ∧
      fe.length.toNat = content.length ∧
      (∀ b, 2048 * b < content.length → ¬ LostBlock image (.fresh part fe) b) ∧
      ∀ x, x < content.length →
        logicalByte (mediaOf image) (.fresh part fe) x = content.getD x 0 := by
  cases h with
  | @inline kind p fileType hplaced hentry =>
    refine ⟨1, _, udfReadFileEntry_inline hplaced hentry, ?_, fun b _ h => ?_, fun x _ => rfl⟩
    · exact UInt64.toNat_ofNat_of_lt' (by simp only [UInt64.size]; omega)
    · exact h.1 rfl
  | @extents kind t p length fileType ads hops hplaced hentry hchain hplain hcount hlength hblocks =>
    obtain ⟨fuel, ⟨⟩, hread⟩ := udfReadFileEntry_counted hplaced hentry hchain hplain hcount ()
    let f := UdfFile.fresh part { length, fileType, u := .ads t (chainAds ads hops) }
    have hbound : ∀ ad ∈ f.ads, ad.length.toNat < 2 ^ 30 :=
      chainAds_bound (fun ad had => recordsAds_bound hentry.ads ad (mem_recorded had)) hchain
    have hslot : ∀ x, x < content.length → udfreadFileLba f (.ofNat (x / 2048)) =
        (flatten adBlocks (adSlot part.p0.lba) (chainAds ads hops)).getD (x / 2048) 0 := by
      intro x hx
      have hb : (UInt32.ofNat (x / 2048)).toNat = x / 2048 := by
        rw [UInt32.toNat_ofNat', Nat.mod_eq_of_lt (by omega)]
      have h := fileLba_slot hbound (.ofNat (x / 2048))
      rwa [hb] at h
    refine ⟨fuel, _, hread, hlength, fun b hb hlost => ?_, fun x hx => ?_⟩
    · have hbyte := hblocks (2048 * b) hb
      have hlba := hslot (2048 * b) hb
      rw [Nat.mul_div_cancel_left b (by decide)] at hbyte hlba
      rw [← hlba] at hbyte
      obtain ⟨hne, hnone⟩ := hlost
      obtain ⟨data, hdata, -⟩ := (if_neg hne).mp hbyte
      rw [hnone] at hdata
      cases hdata
    · have hbyte := hblocks x hx
      simp only at hbyte
      rw [← hslot x hx] at hbyte
      show blockByte (mediaOf image) f (.ofNat (x / 2048)) (x % 2048) = _
      rw [blockByte]
      split
      · rename_i hzero
        rw [if_pos hzero] at hbyte
        exact hbyte.symm
      · rename_i hne
        rw [if_neg hne] at hbyte
        obtain ⟨data, hdata, hbyte⟩ := hbyte
        rw [hbyte, mediaOf, hdata]
        rfl

end

end UdfRead
