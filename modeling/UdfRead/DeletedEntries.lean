import UdfRead.DirEncoding
import UdfRead.Lookups
import UdfRead.Names

/-!
# UdfRead.DeletedEntries

Identifiers with the deleted flag. `_parse_dir_file` skips parents and identifiers without a name,
but does not look at this flag, so listing and lookups see the live entries alone exactly if every
deleted identifier is one it skips anyway (`deletedInvisible_iff`).
-/

namespace UdfRead

open CModel

def FileIdentifier.Deleted (fid : FileIdentifier) : Prop := fid.characteristic &&& charFlagDeleted ≠ 0

instance (fid : FileIdentifier) : Decidable fid.Deleted :=
  inferInstanceAs (Decidable (_ ≠ _))

/-- The entries of the identifiers that are not deleted. -/
def liveEntries (rs : List (FileIdentifier × Bytes)) : List UdfFileIdentifier :=
  (rs.filter fun r => ¬ r.1.Deleted).filterMap fun r => listedEntry r.1

/-- What a reader of directory `dir` is shown are the entries `live`: by `udfread_readdir`, by the
lookups through a directory handle, and by a path that comes to the directory. -/
structure Shows (udf : Udfread) (dir : Nat) (live : List UdfFileIdentifier) : Prop where
  readdir : ∀ i, udfreadReaddir udf ⟨dir, i⟩ = .ok
    (match live[i]? with
    | none => (none, ⟨dir, i⟩)
    | some e => (some (e.filename, decide (e.characteristic &&& charFlagDir ≠ 0)), ⟨dir, i + 1⟩))
  index : ∀ name i, scanDir live name = some i → live[i]? = firstNamed live name
  fileOpenat : ∀ (σ : Type) (I : BlockInput σ) fuel i name,
    udfreadFileOpenat I fuel udf ⟨dir, i⟩ name =
      if cString name = [] then pure (none, udf)
      else
        match firstNamed live name with
        | none => pure (none, udf)
        | some e => do return ((← fileOpen I fuel udf e).map (e, ·), udf)
  opendirAt : ∀ (σ : Type) (I : BlockInput σ) fuel i name,
    udfreadOpendirAt I fuel udf ⟨dir, i⟩ name =
      if cString name = [] then pure (none, udf)
      else
        match scanDir live name with
        | none => pure (none, udf)
        | some index => do
          match ← cacheSubdir I fuel udf dir index with
          | (some sub, udf) => return (some { dir := sub, currentFile := 0 }, udf)
          | (none, udf) => return (none, udf)
  path : ∀ (σ : Type) (I : BlockInput σ) fuel name rest fid,
    findFileLoop I fuel (name :: rest) udf dir fid =
      match scanDir live name with
      | none => pure (none, udf)
      | some index =>
        match live[index]? with
        | none => Proc.ofRes (.error .outOfBounds)
        | some e =>
          if e.characteristic &&& charFlagDir ≠ 0 then do
            match ← cacheSubdir I fuel udf dir index with
            | (none, udf) => return (none, udf)
            | (some sub, udf) => findFileLoop I fuel rest udf sub (some e)
          else if rest ≠ [] then pure (none, udf)
          else pure (some (none, some e), udf)

/-- Every directory that holds the parsed stream shows the live entries. -/
def DeletedInvisible (rs : List (FileIdentifier × Bytes)) : Prop :=
  ∀ entries, parseDirFile (dirBytes rs) (UInt32.ofNat (dirBytes rs).length) [] = .ok (0, entries) →
    ∀ udf dir d, udf.dirs[dir]? = some d → d.entries = entries → Shows udf dir (liveEntries rs)

/-- The parser skips the identifier: a parent, or one whose name is empty or has an unknown
compression id. -/
def FileIdentifier.Skipped (fid : FileIdentifier) : Prop :=
  fid.characteristic &&& charFlagParent ≠ 0 ∨ ¬ Compressed fid.filename ∨ codeUnits fid.filename = []

section

variable {fid : FileIdentifier} {rs : List (FileIdentifier × Bytes)}

theorem udfCs0ToMutf8_none {cs0 : Bytes} (hne : cs0 ≠ []) (h : ¬ Compressed cs0) :
    udfCs0ToMutf8 cs0 = .ok none := by
  cases cs0 with
  | nil => exact absurd rfl hne
  | cons id rest =>
    unfold Compressed at h
    simp only [List.head?_cons, Option.some.injEq, not_or] at h
    have hid : byteAt (id :: rest) 0 = .ok id := rfl
    unfold udfCs0ToMutf8
    rw [if_neg (by simp), hid, Res.ok_bind, if_neg h.1, if_neg h.2]
    rfl

/-- An identifier adds no entry exactly if the parser skips it. -/
theorem listedEntry_none_iff : listedEntry fid = none ↔ fid.Skipped := by
  unfold listedEntry FileIdentifier.Skipped
  by_cases hparent : fid.characteristic &&& charFlagParent ≠ 0
  · simp [hparent]
  · by_cases hname : fid.filename = []
    · simp [hname, Compressed]
    · rw [if_neg (by simp [hparent, hname])]
      by_cases hcomp : Compressed fid.filename
      · rw [udfCs0ToMutf8_eq hcomp]
        have hiff : ((codeUnits fid.filename).flatMap unitBytes = [] ∨
            ((codeUnits fid.filename).flatMap unitBytes).head? = some 0) ↔
              codeUnits fid.filename = [] := by
          constructor
          · rintro (h | h)
            · cases hunits : codeUnits fid.filename with
              | nil => rfl
              | cons u us =>
                rw [hunits, List.flatMap_cons, List.append_eq_nil_iff] at h
                exact absurd h.1 (unitBytes_ne_nil u)
            · exact absurd (List.mem_of_mem_head? h) (zero_notMem_name _)
          · intro h
            rw [h]
            exact .inl rfl
        simp only [hiff, hcomp, not_true, false_or]
        by_cases hunits : codeUnits fid.filename = []
        · simp [hunits]
        · simp [hunits, hparent]
      · rw [udfCs0ToMutf8_none hname hcomp]
        simp [hcomp]

/-! ## The stream -/

theorem listedWithin_all {n offset : Nat} (hrs : ∀ r ∈ rs, EncodesFid r.1 r.2)
    (hn : offset + (dirBytes rs).length ≤ n) :
    listedWithin n offset rs = rs.filterMap fun r => listedEntry r.1 := by
  induction rs generalizing offset with
  | nil => rfl
  | cons r rs ih =>
    have hr := (hrs r (List.mem_cons_self ..)).length
    have hpad := le_padded (fidSize r.2 0)
    rw [dirBytes_cons, List.length_append] at hn
    rw [listedWithin_inside (by omega), ih (fun r' h => hrs r' (List.mem_cons_of_mem _ h)) (by omega)]
    cases hentry : listedEntry r.1 with
    | none => simp [hentry]
    | some e => simp [hentry]

theorem parseDirFile_all (hrs : ∀ r ∈ rs, EncodesFid r.1 r.2)
    (hlen : (dirBytes rs).length < 2 ^ 32) :
    parseDirFile (dirBytes rs) (UInt32.ofNat (dirBytes rs).length) [] =
      .ok (0, rs.filterMap fun r => listedEntry r.1) := by
  have htoNat : (UInt32.ofNat (dirBytes rs).length).toNat = (dirBytes rs).length := by
    rw [UInt32.toNat_ofNat', Nat.mod_eq_of_lt hlen]
  have hall : listedWithin (dirBytes rs).length 0 rs = rs.filterMap fun r => listedEntry r.1 :=
    listedWithin_all hrs (by omega)
  rw [← hall, parseDirFile]
  split
  · rename_i h16
    have h16' : (dirBytes rs).length < 16 := by
      rw [← htoNat]
      exact UInt32.lt_iff_toNat_lt.mp h16
    rw [listedWithin_past (by omega)]
  · rename_i h16
    have hge : 16 ≤ (dirBytes rs).length := by
      rw [← htoNat]
      exact UInt32.le_iff_toNat_le.mp (UInt32.not_lt.mp h16)
    have hleft : Left (dirBytes rs) 0 rs := ⟨by omega, by simp⟩
    rw [htoNat]
    exact parseDirLoop_encoded hrs hleft hlen (by omega) (by omega) (by simp)

theorem liveEntries_deleted {r : FileIdentifier × Bytes} (h : r.1.Deleted) :
    liveEntries (r :: rs) = liveEntries rs := by
  simp [liveEntries, h]

theorem liveEntries_live {r : FileIdentifier × Bytes} (h : ¬ r.1.Deleted) :
    liveEntries (r :: rs) = (listedEntry r.1).toList ++ liveEntries rs := by
  cases he : listedEntry r.1 with
  | none => simp [liveEntries, h, he]
  | some e => simp [liveEntries, h, he]

theorem listing_cons (r : FileIdentifier × Bytes) :
    ((r :: rs).filterMap fun r => listedEntry r.1) =
      (listedEntry r.1).toList ++ rs.filterMap fun r => listedEntry r.1 := by
  cases he : listedEntry r.1 with
  | none => simp [he]
  | some e => simp [he]

/-- Deleted identifiers that add no entry leave the live entries. -/
theorem live_of_skipped (h : ∀ r ∈ rs, r.1.Deleted → listedEntry r.1 = none) :
    (rs.filterMap fun r => listedEntry r.1) = liveEntries rs := by
  induction rs with
  | nil => rfl
  | cons r rs ih =>
    have hrest := ih fun r' hr' => h r' (List.mem_cons_of_mem _ hr')
    rw [listing_cons, hrest]
    by_cases hdel : r.1.Deleted
    · rw [liveEntries_deleted hdel, h r (List.mem_cons_self ..) hdel]
      rfl
    · rw [liveEntries_live hdel]

theorem live_length_le (rs : List (FileIdentifier × Bytes)) :
    (liveEntries rs).length ≤ (rs.filterMap fun r => listedEntry r.1).length :=
  (List.filter_sublist.filterMap _).length_le

/-- A deleted identifier that adds an entry makes the listing longer than the live one. -/
theorem live_length_lt {r : FileIdentifier × Bytes} (hr : r ∈ rs) (hdel : r.1.Deleted)
    (hentry : listedEntry r.1 ≠ none) :
    (liveEntries rs).length < (rs.filterMap fun r => listedEntry r.1).length := by
  induction rs with
  | nil => cases hr
  | cons r' rs ih =>
    have hle := live_length_le rs
    rw [listing_cons, List.length_append]
    rw [List.mem_cons] at hr
    rcases hr with rfl | hr
    · obtain ⟨e, he⟩ := Option.ne_none_iff_exists'.mp hentry
      rw [liveEntries_deleted hdel, he, Option.toList_some, List.length_singleton]
      omega
    · have hlt := ih hr
      by_cases hdel' : r'.1.Deleted
      · rw [liveEntries_deleted hdel']
        omega
      · rw [liveEntries_live hdel', List.length_append]
        omega

/-! ## The directory -/

/-- A directory shows its own entries, none of which is a parent. -/
theorem shows_entries {udf : Udfread} {dir : Nat} {d : UdfDir} (hd : udf.dirs[dir]? = some d)
    (hparent : ∀ e ∈ d.entries, e.characteristic &&& charFlagParent = 0) :
    Shows udf dir d.entries where
  readdir := by
    intro i
    unfold udfreadReaddir
    rw [hd]
    simp only
    cases he : d.entries[i]? with
    | none => rfl
    | some e =>
      have := hparent e (List.mem_of_getElem? he)
      simp [this]
  index := by
    intro name i hi
    have hlt : i < d.entries.length := by
      unfold scanDir at hi
      exact (List.findIdx?_eq_some_iff_getElem.mp hi).1
    rw [List.getElem?_eq_getElem hlt]
    exact (scanDir_first hi (List.getElem?_eq_getElem hlt)).symm
  fileOpenat := by
    intro σ I fuel i name
    unfold udfreadFileOpenat
    by_cases hname : cString name = []
    · rw [if_pos hname, if_pos hname]
    · rw [if_neg hname, if_neg hname]
      simp only [hd]
      cases hscan : scanDir d.entries name with
      | none =>
        have hnone : firstNamed d.entries name = none := by
          unfold scanDir at hscan
          rw [firstNamed, List.find?_eq_bind_findIdx?_getElem?, hscan]
          rfl
        rw [hnone]
      | some index =>
        cases he : d.entries[index]? with
        | none =>
          unfold scanDir at hscan
          have := (List.findIdx?_eq_some_iff_getElem.mp hscan).1
          rw [List.getElem?_eq_none_iff] at he
          omega
        | some e =>
          rw [scanDir_first hscan he]
          simp only [he]
  opendirAt := by
    intro σ I fuel i name
    unfold udfreadOpendirAt
    by_cases hname : cString name = []
    · rw [if_pos hname, if_pos hname]
    · rw [if_neg hname, if_neg hname]
      generalize udf.dirs[dir]? = node at hd ⊢
      cases hd
      rfl
  path := by
    intro σ I fuel name rest fid
    rw [findFileLoop]
    generalize udf.dirs[dir]? = node at hd ⊢
    cases hd
    rfl

theorem deletedInvisible_of_skipped (hrs : ∀ r ∈ rs, EncodesFid r.1 r.2)
    (hlen : (dirBytes rs).length < 2 ^ 32)
    (h : ∀ r ∈ rs, r.1.Deleted → listedEntry r.1 = none) : DeletedInvisible rs := by
  intro entries hparse udf dir d hd hentries
  rw [parseDirFile_all hrs hlen] at hparse
  cases hparse
  rw [← live_of_skipped h, ← hentries]
  refine shows_entries hd fun e he => ?_
  rw [hentries, List.mem_filterMap] at he
  obtain ⟨r, -, hr⟩ := he
  exact (listedEntry_some hr).2

theorem skipped_of_deletedInvisible (hrs : ∀ r ∈ rs, EncodesFid r.1 r.2)
    (hlen : (dirBytes rs).length < 2 ^ 32) (h : DeletedInvisible rs) :
    ∀ r ∈ rs, r.1.Deleted → listedEntry r.1 = none := by
  intro r hr hdel
  by_contra hentry
  have hlt := live_length_lt hr hdel hentry
  -- the listing goes on where the live entries end
  have hshow := (h _ (parseDirFile_all hrs hlen)
    { Udfread.init 0 with
      dirs := [{ entries := rs.filterMap fun r => listedEntry r.1, subdirs := none }] }
    0 _ rfl rfl).readdir (liveEntries rs).length
  obtain ⟨e, he⟩ : ∃ e, (rs.filterMap fun r => listedEntry r.1)[(liveEntries rs).length]? = some e :=
    ⟨_, List.getElem?_eq_getElem hlt⟩
  unfold udfreadReaddir at hshow
  simp only [List.getElem?_cons_zero, he] at hshow
  rw [List.getElem?_eq_none (le_refl _)] at hshow
  cases hshow

end

/-- Deleted entries are invisible in the directory that a stream of identifiers is parsed to exactly
if the parser skips every deleted identifier for another reason. -/
theorem deletedInvisible_iff (rs : List (FileIdentifier × Bytes))
    (hrs : ∀ r ∈ rs, EncodesFid r.1 r.2) (hlen : (dirBytes rs).length < 2 ^ 32) :
    DeletedInvisible rs ↔ ∀ r ∈ rs, r.1.Deleted → r.1.Skipped := by
  constructor
  · intro h r hr hdel
    exact listedEntry_none_iff.mp (skipped_of_deletedInvisible hrs hlen h r hr hdel)
  · intro h
    exact deletedInvisible_of_skipped hrs hlen fun r hr hdel => listedEntry_none_iff.mpr (h r hr hdel)

/-- A file that was named `a`, deleted. -/
def fidDeleted : FileIdentifier :=
  { fidA with icb := { fidA.icb with lba := 6 }, characteristic := charFlagDeleted }

/-- A deleted identifier in front of a live one with the same name. -/
def deletedFirst : List (FileIdentifier × Bytes) :=
  [(fidDeleted, encodeFid fidDeleted []), (fidA, encodeFid fidA [])]

theorem deletedFirst_encodes : ∀ r ∈ deletedFirst, EncodesFid r.1 r.2 := by
  intro r hr
  simp only [deletedFirst, List.mem_cons, List.not_mem_nil, or_false] at hr
  rcases hr with rfl | rfl
  · exact encodesFid_encodeFid (by decide) (by decide) (by decide) (by decide)
  · exact encodesFid_encodeFid (by decide) (by decide) (by decide) (by decide)

theorem deletedInvisible_iff_first :
    DeletedInvisible deletedFirst ↔ ∀ r ∈ deletedFirst, r.1.Deleted → r.1.Skipped :=
  deletedInvisible_iff deletedFirst deletedFirst_encodes (by decide)

/-- The deleted identifier is listed, and a lookup of the name finds it instead of the live one. -/
theorem deletedFirst_listed :
    parseDirFile (dirBytes deletedFirst) 80 [] =
        .ok (0, [{ filename := [97], icb := fidDeleted.icb, characteristic := charFlagDeleted },
          { filename := [97], icb := fidA.icb, characteristic := 0 }]) ∧
      scanDir [{ filename := [97], icb := fidDeleted.icb, characteristic := charFlagDeleted },
          { filename := [97], icb := fidA.icb, characteristic := 0 }] [97] = some 0 ∧
      firstNamed (liveEntries deletedFirst) [97] =
        some { filename := [97], icb := fidA.icb, characteristic := 0 } ∧
      ¬ DeletedInvisible deletedFirst := by
  refine ⟨by decide +kernel, by decide, by decide, fun h => ?_⟩
  have hskip := skipped_of_deletedInvisible deletedFirst_encodes (by decide) h
    (fidDeleted, encodeFid fidDeleted []) (List.mem_cons_self ..) (by decide)
  revert hskip
  decide

end UdfRead
