import Mathlib.Data.List.Perm.Subperm
import Poco.Zip.Compress

/-!
# Reading ZIP files

`ZipArchive::parse` with a `SkipCallback`: the records of a stream are read one after the
other, and the names of the entries must be new each time.

A value that the stream is too short for is filled with zeros, as the raw headers are.  After
it the stream is at its end, and the loop returns.

## Main definitions

* `Reader`: a stream, and the failures of what reads from it.
* `loop`, `ofStream`: the loop of `ZipArchive::parse`, each round of which takes four bytes or more,
  and the constructor from a stream.
* `Plain`: a header as a writer on a seekable output leaves it, and the data after it.
* `Passed`: the entries that a reader passes which has some names already.

## Main results

* `loop_fuel`: the fuel of the loop does not matter if there is more of it than bytes.
* `loop_locals`, `loop_infos`: the entries of a writer and the records of the central directory are
  passed, or an assertion is violated.
* `out_of_adds`: the output is the entries one after the other if all names are short.
* `ofStream_close_iff`: the archives that are read back.
-/

namespace Poco.Zip

open List Bytes SortedAssoc ZipUtil

inductive ReadFailure where
  | assertionViolation
  | illegalStateException (message : String)
  deriving DecidableEq, Repr

abbrev Reader := StateT Bytes (Except ReadFailure)

def readValue (k : ℕ) : Reader ℕ := fun s => .ok (Bytes.natLE (s.take k), s.drop k)

def readByte : Reader UInt8 := fun s => .ok (s.headD 0, s.tail)

def readSize : Reader (Fin (2 ^ 16)) :=
  fun s => .ok (Fin.ofNat (2 ^ 16) (Bytes.natLE (s.take 2)), s.drop 2)

def readText (n : ℕ) : Reader { t : Bytes // t.length ≤ n } :=
  fun s => .ok (⟨s.take n, List.length_take_le n s⟩, s.drop n)

def check (p : Prop) [Decidable p] : Reader Unit :=
  fun s => if p then .ok ((), s) else .error .assertionViolation

def readDateTime (time date : ℕ) : Reader DateTime := fun s =>
  match ZipUtil.parseDateTime time date with
  | some dt => .ok (dt, s)
  | none => .error .assertionViolation

def ZipUtil.sync : Bytes → Bytes
  | [] => []
  | c :: s =>
    if (c :: s).take 4 = ZipLocalFileHeader.HEADER ∨ (c :: s).take 4 = ZipArchiveInfo.HEADER ∨
        (c :: s).take 4 = ZipFileInfo.HEADER ∨ (c :: s).take 4 = ZipDataInfo.HEADER then c :: s
    else sync s

/-- The major version is computed from a signed byte. -/
def majorVersionSupported (version : UInt8) : Prop := version < 30 ∨ 128 ≤ version

instance (version : UInt8) : Decidable (majorVersionSupported version) :=
  inferInstanceAs (Decidable (_ ∨ _))

/-- `ZipLocalFileHeader::parse`, after the signature. -/
def ZipLocalFileHeader.parse : Reader ZipLocalFileHeader := do
  let version ← readByte
  let hostSystem ← readByte
  let gpLow ← readByte
  let gpHigh ← readByte
  let compressionMethod ← readValue 2
  let time ← readValue 2
  let date ← readValue 2
  let crc32 ← readValue 4
  let compressedSize ← readValue 4
  let uncompressedSize ← readValue 4
  let fileNameLength ← readSize
  let extraFieldLength ← readSize
  check (hostSystem < HS_UNUSED)
  check (majorVersionSupported version)
  check (compressionMethod < CompressionMethod.unused.code)
  let lastModifiedAt ← readDateTime time date
  let fileName ← readText fileNameLength
  let extraField ← readText extraFieldLength
  let h : ZipLocalFileHeader :=
    { version := version, hostSystem := hostSystem, gpLow := gpLow, gpHigh := gpHigh,
      compressionMethod := compressionMethod, lastModifiedAt := lastModifiedAt, crc32 := 0,
      compressedSize := 0, uncompressedSize := 0, fileName := fileName, extraField := extraField,
      startPos := 0, endPos := 0,
      extraField_lt := extraField.2.trans_lt extraFieldLength.2 }
  pure (if h.searchCRCAndSizesAfterData then h
    else h.setCRCAndSizes crc32 compressedSize uncompressedSize)

/-- `ZipDataInfo`, with the signature: the checksum and the two sizes. -/
def ZipDataInfo.read : Reader (ℕ × ℕ × ℕ) := do
  let header ← readText 4
  check (header.1 = ZipDataInfo.HEADER)
  let crc32 ← readValue 4
  let compressedSize ← readValue 4
  let uncompressedSize ← readValue 4
  pure (crc32, compressedSize, uncompressedSize)

/-- The constructor of `ZipLocalFileHeader` from a stream, with a `SkipCallback`. -/
def ZipLocalFileHeader.read (startPos : ℕ) : Reader ZipLocalFileHeader := do
  let h ← parse
  if h.searchCRCAndSizesAfterData then
    modify ZipUtil.sync
    let (crc32, compressedSize, uncompressedSize) ← ZipDataInfo.read
    pure ((h.setCRCAndSizes crc32 compressedSize uncompressedSize).setStartPos startPos)
  else
    modify (List.drop h.compressedSize)
    pure (h.setStartPos startPos)

/-- `ZipFileInfo::parse`, after the signature.  The extra field and the comment are not
kept. -/
def ZipFileInfo.read : Reader ZipFileInfo := do
  let version ← readByte
  let hostSystem ← readByte
  let _versionNeeded ← readValue 2
  let gpLow ← readByte
  let _gpHigh ← readByte
  let compressionMethod ← readValue 2
  let time ← readValue 2
  let date ← readValue 2
  let crc32 ← readValue 4
  let compressedSize ← readValue 4
  let uncompressedSize ← readValue 4
  let fileNameLength ← readSize
  let extraFieldLength ← readSize
  let fileCommentLength ← readSize
  let _diskNumberStart ← readValue 2
  let _internalFileAttributes ← readValue 2
  let externalFileAttributes ← readValue 4
  let offset ← readValue 4
  let lastModifiedAt ← readDateTime time date
  let fileName ← readText fileNameLength
  let _extraField ← readText extraFieldLength
  let _fileComment ← readText fileCommentLength
  pure
    { version := version, hostSystem := hostSystem, gpLow := gpLow,
      compressionMethod := compressionMethod, lastModifiedAt := lastModifiedAt, crc32 := crc32,
      compressedSize := compressedSize, uncompressedSize := uncompressedSize,
      fileName := fileName, externalFileAttributes := externalFileAttributes, offset := offset }

/-- `ZipArchiveInfo::parse`, after the signature: the number of the disk and the rest. -/
def ZipArchiveInfo.read : Reader (ℕ × ZipArchiveInfo) := do
  let diskNumber ← readValue 2
  let _centralDirectoryDisk ← readValue 2
  let numberOfEntries ← readValue 2
  let _totalNumberOfEntries ← readValue 2
  let centralDirectorySize ← readValue 4
  let headerOffset ← readValue 4
  let commentLength ← readSize
  let comment ← readText commentLength
  pure (diskNumber,
    { numberOfEntries := numberOfEntries, centralDirectorySize := centralDirectorySize,
      headerOffset := headerOffset, comment := comment })

structure ZipArchive where
  entries : List (Bytes × ZipLocalFileHeader) := []
  infos : List (Bytes × ZipFileInfo) := []
  disks : List (ℕ × ZipArchiveInfo) := []

namespace ZipArchive

/-- One record of `ZipArchive::parse`, after the signature. -/
def readRecord (ar : ZipArchive) (startPos : ℕ) (header : Bytes) : Reader ZipArchive :=
  if header = ZipLocalFileHeader.HEADER then do
    let entry ← ZipLocalFileHeader.read startPos
    check (entry.fileName ∉ ar.entries.map Prod.fst)
    pure { ar with entries := SortedAssoc.insert ar.entries entry.fileName entry }
  else if header = ZipFileInfo.HEADER then do
    let info ← ZipFileInfo.read
    check (info.fileName ∉ ar.infos.map Prod.fst)
    pure { ar with
      entries := ar.entries.map fun e =>
        (e.1, if e.1 = info.fileName then e.2.setStartPos info.offset else e.2)
      infos := SortedAssoc.insert ar.infos info.fileName info }
  else if header = ZipArchiveInfo.HEADER then do
    let nfo ← ZipArchiveInfo.read
    check (nfo.1 ∉ ar.disks.map Prod.fst)
    pure { ar with disks := SortedAssoc.insert ar.disks nfo.1 nfo.2 }
  else throw (.illegalStateException
    (if ar.disks.isEmpty then "Illegal header in zip file" else "Garbage after directory header"))

def loop : ℕ → ZipArchive → ℕ → Bytes → Except ReadFailure ZipArchive
  | 0, ar, _, _ => .ok ar
  | fuel + 1, ar, pos, s =>
    if s.length < 4 then .ok ar
    else
      match readRecord ar pos (s.take 4) (s.drop 4) with
      | .error e => .error e
      | .ok (ar, rest) => loop fuel ar (pos + (s.length - rest.length)) rest

def ofStream (s : Bytes) : Except ReadFailure ZipArchive := loop (s.length + 1) {} 0 s

end ZipArchive

/-! ### What the readers do -/

section Readers

variable {α β : Type} {s s' : Bytes}

variable {m : Reader α}

theorem bind_ok {a : α} (h : m s = .ok (a, s')) : (m >>= f) s = f a s' := by
  show (m s >>= fun p => f p.1 p.2) = f a s'
  rw [h]
  rfl

theorem bind_error (h : m s = .error e) : (m >>= f) s = .error e := by
  show (m s >>= fun p => f p.1 p.2) = .error e
  rw [h]
  rfl

theorem bind_readByte (f : UInt8 → Reader β) (b : UInt8) (s : Bytes) :
    (readByte >>= f) (b :: s) = f b s := rfl

theorem bind_readValue (f : ℕ → Reader β) (k n : ℕ) (s : Bytes) :
    (readValue k >>= f) (bytesLE k n ++ s) = f (n % 256 ^ k) s := by
  apply bind_ok
  rw [readValue, take_left' (length_bytesLE k n), drop_left' (length_bytesLE k n), natLE_bytesLE]

theorem bind_readSize (f : Fin (2 ^ 16) → Reader β) (n : ℕ) (s : Bytes) :
    (readSize >>= f) (bytesLE 2 n ++ s) = f (Fin.ofNat (2 ^ 16) n) s := by
  apply bind_ok
  rw [readSize, take_left' (length_bytesLE 2 n), natLE_bytesLE]
  congr 2
  exact Fin.ext (Nat.mod_mod _ _)

theorem val_ofNat {n : ℕ} (h : n < 2 ^ 16) : (Fin.ofNat (2 ^ 16) n : ℕ) = n := Nat.mod_eq_of_lt h

theorem bind_readText (h : n = t.length)
    {f : { t' : Bytes // t'.length ≤ n } → Reader β} (s : Bytes) :
    (readText n >>= f) (t ++ s) = f ⟨t, h.ge⟩ s := by
  subst h
  apply bind_ok
  simp [readText]

theorem bind_check {p : Prop} [Decidable p] (h : p) {f : Unit → Reader β} :
    (check p >>= f) s = f () s :=
  bind_ok (if_pos h)

/-- The date and the time of a header fit in 16 bits each, and are read if they make a date. -/
theorem readDateTime_of_storable (h : ZipUtil.Storable d) : ∃ dt, ∀ s,
    readDateTime (dosTime d % 256 ^ 2) (dosDate d % 256 ^ 2) s = .ok (dt, s) := by
  obtain ⟨dt, hdt⟩ := Option.isSome_iff_exists.mp ((parseDateTime_isSome_iff d).mpr h)
  refine ⟨dt, fun s => ?_⟩
  rw [dosTime_mod, dosDate_mod, readDateTime, hdt]

theorem readDateTime_of_not_storable (h : ¬ ZipUtil.Storable d) (s : Bytes) :
    readDateTime (dosTime d % 256 ^ 2) (dosDate d % 256 ^ 2) s
      = .error .assertionViolation := by
  rw [← parseDateTime_isSome_iff, Option.not_isSome_iff_eq_none] at h
  rw [dosTime_mod, dosDate_mod, readDateTime, h]

/-- What a reader returns satisfies `P`, and the stream does not get longer. -/
def Returns (P : α → Prop) (m : Reader α) : Prop :=
  ∀ ⦃s a s'⦄, m s = .ok (a, s') → P a ∧ s'.length ≤ s.length

theorem Returns.bind {P : α → Prop} {Q : β → Prop} (hm : Returns P m)
    (hf : ∀ a, P a → Returns Q (f a)) : Returns Q (m >>= f) := by
  intro s b s' h
  cases hms : m s with
  | error e =>
    rw [bind_error hms] at h
    cases h
  | ok r =>
    obtain ⟨a, s₁⟩ := r
    rw [bind_ok hms] at h
    obtain ⟨ha, hlen₁⟩ := hm hms
    obtain ⟨hb, hlen⟩ := hf a ha h
    exact ⟨hb, hlen.trans hlen₁⟩

theorem returns_pure {P : α → Prop} {a : α} (h : P a) : Returns P (pure a) := by
  rintro s _ _ ⟨⟩
  exact ⟨h, le_rfl⟩

theorem returns_ok {g : Bytes → α} {r : Bytes → Bytes}
    (h : ∀ s, (r s).length ≤ s.length) :
    Returns (fun _ => True) fun s => Except.ok (g s, r s) := by
  rintro s _ _ ⟨⟩
  exact ⟨trivial, h s⟩

theorem returns_readValue (k : ℕ) : Returns (fun _ => True) (readValue k) :=
  returns_ok fun s => by simp

theorem returns_readByte : Returns (fun _ => True) readByte := returns_ok fun s => by simp

theorem returns_readSize : Returns (fun _ => True) readSize := returns_ok fun s => by simp

theorem returns_readText (n : ℕ) : Returns (fun _ => True) (readText n) :=
  returns_ok fun s => by simp

theorem returns_check (p : Prop) [Decidable p] : Returns (fun _ => p) (check p) := by
  intro s _ s' h
  rw [check] at h
  split at h
  · next hp =>
    cases h
    exact ⟨hp, le_rfl⟩
  · cases h

theorem returns_readDateTime (time date : ℕ) :
    Returns (fun _ => True) (readDateTime time date) := by
  intro s _ s' h
  rw [readDateTime] at h
  split at h
  · cases h
    exact ⟨trivial, le_rfl⟩
  · cases h

theorem ZipUtil.length_sync_le (s : Bytes) : (sync s).length ≤ s.length := by
  induction s with
  | nil => exact le_rfl
  | cons c s ih =>
    rw [sync]
    split
    · exact le_rfl
    · exact ih.trans (by simp)

theorem ZipLocalFileHeader.returns_parse : Returns (fun h => h.fileName.length < 2 ^ 16) parse := by
  iterate 4 refine returns_readByte.bind fun _ _ => ?_
  iterate 6 refine (returns_readValue _).bind fun _ _ => ?_
  refine returns_readSize.bind fun fileNameLength _ => returns_readSize.bind fun _ _ => ?_
  iterate 3 refine (returns_check _).bind fun _ _ => ?_
  refine (returns_readDateTime _ _).bind fun _ _ => ?_
  refine (returns_readText _).bind fun fileName _ => (returns_readText _).bind fun _ _ => ?_
  refine returns_pure ?_
  have hname : fileName.1.length < 2 ^ 16 := fileName.2.trans_lt fileNameLength.2
  split
  · exact hname
  · exact hname

theorem ZipDataInfo.returns_read : Returns (fun _ => True) read := by
  refine (returns_readText _).bind fun _ _ => (returns_check _).bind fun _ _ => ?_
  iterate 3 refine (returns_readValue _).bind fun _ _ => ?_
  exact returns_pure trivial

theorem ZipLocalFileHeader.returns_read (startPos : ℕ) :
    Returns (fun h => h.fileName.length < 2 ^ 16) (read startPos) := by
  refine returns_parse.bind fun h hname => ?_
  split
  · refine (returns_ok length_sync_le).bind fun _ _ => ?_
    exact ZipDataInfo.returns_read.bind fun _ _ => returns_pure hname
  · exact (returns_ok fun s => by simp).bind fun _ _ => returns_pure hname

theorem ZipFileInfo.returns_read : Returns (fun _ => True) read := by
  iterate 2 refine returns_readByte.bind fun _ _ => ?_
  refine (returns_readValue _).bind fun _ _ => ?_
  iterate 2 refine returns_readByte.bind fun _ _ => ?_
  iterate 6 refine (returns_readValue _).bind fun _ _ => ?_
  iterate 3 refine returns_readSize.bind fun _ _ => ?_
  iterate 4 refine (returns_readValue _).bind fun _ _ => ?_
  refine (returns_readDateTime _ _).bind fun _ _ => ?_
  iterate 3 refine (returns_readText _).bind fun _ _ => ?_
  exact returns_pure trivial

theorem ZipArchiveInfo.returns_read : Returns (fun _ => True) read := by
  iterate 6 refine (returns_readValue _).bind fun _ _ => ?_
  refine returns_readSize.bind fun _ _ => (returns_readText _).bind fun _ _ => ?_
  exact returns_pure trivial

end Readers

/-! ### Reading what has been written -/

structure Plain (h : ZipLocalFileHeader) (payload : Bytes) : Prop where
  version : h.version = 20
  hostSystem : h.hostSystem = HS_UNIX
  method : h.compressionMethod = CM_DEFLATE ∨ h.compressionMethod = CM_STORE
  search : h.searchCRCAndSizesAfterData = false
  compressedSize : h.compressedSize = payload.length
  payload_lt : payload.length < 2 ^ 32
  extraField : h.extraField = []

namespace ZipLocalFileHeader

variable {payload : Bytes}

/-- The parsed header is the header written, with the date as it can be stored. -/
theorem parse_createHeader (hpl : Plain h payload) (hname : h.fileName.length < 2 ^ 16)
    (rest : Bytes) :
    parse ((h.createHeader ++ rest).drop 4) =
      (readDateTime (dosTime h.lastModifiedAt % 256 ^ 2)
          (dosDate h.lastModifiedAt % 256 ^ 2) >>= fun dt =>
        pure (({ h with lastModifiedAt := dt, startPos := 0, endPos := 0 }
          ).setCRCAndSizes h.crc32 h.compressedSize h.uncompressedSize)) rest := by
  have hmet : h.compressionMethod % 256 ^ 2 = h.compressionMethod ∧
      h.compressionMethod < CompressionMethod.unused.code := by
    rcases hpl.method with hm | hm
    · rw [hm]
      decide
    · rw [hm]
      decide
  have hdrop : (h.createHeader ++ rest).drop 4 = h.version :: h.hostSystem :: h.gpLow :: h.gpHigh ::
      (bytesLE 2 h.compressionMethod ++ (bytesLE 2 (dosTime h.lastModifiedAt) ++
        (bytesLE 2 (dosDate h.lastModifiedAt) ++ (bytesLE 4 h.crc32 ++
        (bytesLE 4 h.compressedSize ++ (bytesLE 4 h.uncompressedSize ++
        (bytesLE 2 h.fileName.length ++ (bytesLE 2 h.extraField.length ++
        (h.fileName ++ (h.extraField ++ rest)))))))))) := by
    simp only [createHeader, HEADER, append_assoc]
    rfl
  rw [hdrop, parse]
  simp only [bind_readByte, bind_readValue, bind_readSize]
  rw [hmet.1, bind_check (by rw [hpl.hostSystem]; decide),
    bind_check (by rw [hpl.version]; decide), bind_check hmet.2]
  by_cases hdate : ZipUtil.Storable h.lastModifiedAt
  · obtain ⟨dt, hdt⟩ := readDateTime_of_storable hdate
    rw [bind_ok (hdt _), bind_ok (hdt _), bind_readText (val_ofNat hname),
      bind_readText (val_ofNat h.extraField_lt)]
    have hsrc : h.searchCRCAndSizesAfterData = false := hpl.search
    show Except.ok (if h.searchCRCAndSizesAfterData = true then _ else _, rest) = _
    rw [hsrc, if_neg Bool.false_ne_true]
    simp only [setCRCAndSizes]
    congr 3
    · exact Nat.mod_mod _ _
    · exact Nat.mod_mod _ _
    · exact Nat.mod_mod _ _
  · rw [bind_error (readDateTime_of_not_storable hdate _),
      bind_error (readDateTime_of_not_storable hdate _)]

theorem read_of_storable (hpl : Plain h payload) (hname : h.fileName.length < 2 ^ 16)
    (hdate : ZipUtil.Storable h.lastModifiedAt) (startPos : ℕ) (rest : Bytes) :
    ∃ h' : ZipLocalFileHeader, h'.fileName = h.fileName ∧
      read startPos ((h.createHeader ++ (payload ++ rest)).drop 4) = .ok (h', rest) := by
  obtain ⟨dt, hdt⟩ := readDateTime_of_storable hdate
  have hdrop : (payload ++ rest).drop (h.compressedSize % 2 ^ 32) = rest := by
    rw [hpl.compressedSize, Nat.mod_eq_of_lt hpl.payload_lt, drop_left]
  rw [read, bind_ok ((parse_createHeader hpl hname _).trans (bind_ok (hdt _)))]
  show ∃ h', _ ∧ (if h.searchCRCAndSizesAfterData = true then _ else _ : Reader _) _ = _
  rw [hpl.search, if_neg Bool.false_ne_true]
  show ∃ h', _ ∧ Except.ok (_, (payload ++ rest).drop (h.compressedSize % 2 ^ 32)) = _
  rw [hdrop]
  refine ⟨_, ?_, rfl⟩
  rfl

theorem read_of_not_storable (hpl : Plain h payload) (hname : h.fileName.length < 2 ^ 16)
    (hdate : ¬ ZipUtil.Storable h.lastModifiedAt) (startPos : ℕ) (rest : Bytes) :
    read startPos ((h.createHeader ++ rest).drop 4) = .error .assertionViolation :=
  bind_error ((parse_createHeader hpl hname rest).trans
    (bind_error (readDateTime_of_not_storable hdate _)))

end ZipLocalFileHeader

theorem ZipFileInfo.read_of_storable {i : ZipFileInfo} (hname : i.fileName.length < 2 ^ 16)
    (hdate : ZipUtil.Storable i.lastModifiedAt) (rest : Bytes) :
    ∃ i' : ZipFileInfo, i'.fileName = i.fileName ∧
      read ((i.createHeader ++ rest).drop 4) = .ok (i', rest) := by
  obtain ⟨dt, hdt⟩ := readDateTime_of_storable hdate
  have hdrop : (i.createHeader ++ rest).drop 4 = i.version :: i.hostSystem :: i.version ::
      i.hostSystem :: i.gpLow :: 0 :: (bytesLE 2 i.compressionMethod ++
        (bytesLE 2 (dosTime i.lastModifiedAt) ++
        (bytesLE 2 (dosDate i.lastModifiedAt) ++ (bytesLE 4 i.crc32 ++
        (bytesLE 4 i.compressedSize ++ (bytesLE 4 i.uncompressedSize ++
        (bytesLE 2 i.fileName.length ++ (bytesLE 2 0 ++ (bytesLE 2 0 ++
        (bytesLE 2 0 ++ (bytesLE 2 0 ++ (bytesLE 4 i.externalFileAttributes ++
        (bytesLE 4 i.offset ++ (i.fileName ++ rest)))))))))))))) := by
    simp only [createHeader, HEADER, append_assoc]
    rfl
  have hnee : ∀ s, readValue 2 (i.version :: i.hostSystem :: s)
      = .ok (natLE [i.version, i.hostSystem], s) := fun _ => rfl
  have hemp : ∀ s, readText (Fin.ofNat (2 ^ 16) 0 : ℕ) s = .ok (⟨[], le_rfl⟩, s) := fun _ => rfl
  rw [hdrop, read, bind_readByte, bind_readByte, bind_ok (hnee _)]
  simp only [bind_readByte, bind_readValue, bind_readSize]
  rw [bind_ok (hdt _), bind_readText (val_ofNat hname), bind_ok (hemp _), bind_ok (hemp _)]
  refine ⟨_, ?_, rfl⟩
  rfl

theorem ZipArchiveInfo.read_createHeader {i : ZipArchiveInfo} (hcom : i.comment.length < 2 ^ 16)
    (rest : Bytes) :
    ∃ i' : ZipArchiveInfo, read ((i.createHeader ++ rest).drop 4) = .ok ((0, i'), rest) := by
  have hdrop : (i.createHeader ++ rest).drop 4 = bytesLE 2 0 ++ (bytesLE 2 0 ++
      (bytesLE 2 i.numberOfEntries ++ (bytesLE 2 i.numberOfEntries ++
      (bytesLE 4 i.centralDirectorySize ++ (bytesLE 4 i.headerOffset ++
      (bytesLE 2 i.comment.length ++ (i.comment ++ rest))))))) := by
    simp only [createHeader, HEADER, append_assoc]
    rfl
  rw [hdrop, read]
  simp only [bind_readValue, bind_readSize]
  rw [bind_readText (val_ofNat hcom)]
  exact ⟨_, rfl⟩

/-! ### The loop -/

namespace ZipArchive

section Loop

variable {ar ar' : ZipArchive} {fuel pos : ℕ} {s rest : Bytes}

theorem loop_record (hs : header <+: s) (hhd : header.length = 4) : loop (fuel + 1) ar pos s =
      match readRecord ar pos header (s.drop 4) with
      | .error e => .error e
      | .ok (ar', rest) => loop fuel ar' (pos + (s.length - rest.length)) rest := by
  obtain ⟨t, rfl⟩ := hs
  rw [loop, if_neg (by simp [hhd]), take_left' hhd]

def ShortNames (ar : ZipArchive) : Prop := ∀ n ∈ ar.entries.map Prod.fst, n.length < 2 ^ 16

theorem shortNames_empty : ShortNames {} := by
  intro n hn
  cases hn

theorem returns_readRecord (ar : ZipArchive) (startPos : ℕ) (header : Bytes) :
    Returns (fun ar' => ShortNames ar → ShortNames ar') (readRecord ar startPos header) := by
  rw [readRecord]
  split
  · refine (ZipLocalFileHeader.returns_read startPos).bind fun h hname => ?_
    refine (returns_check _).bind fun _ hnew => returns_pure ?_
    intro har n hn
    rcases mem_cons.mp ((map_fst_insert_perm hnew h).subset hn) with rfl | hn
    · exact hname
    · exact har n hn
  · split
    · refine ZipFileInfo.returns_read.bind fun i _ => ?_
      refine (returns_check _).bind fun _ _ => returns_pure ?_
      intro har n hn
      exact har n (by simpa using hn)
    · split
      · exact ZipArchiveInfo.returns_read.bind fun _ _ =>
          (returns_check _).bind fun _ _ => returns_pure id
      · intro s a s' h
        cases h

theorem shortNames_loop : ∀ {fuel pos : ℕ} {ar ar' : ZipArchive} {s : Bytes}, ShortNames ar →
    loop fuel ar pos s = .ok ar' → ShortNames ar' := by
  intro fuel
  induction fuel with
  | zero =>
    rintro pos ar ar' s har ⟨⟩
    exact har
  | succ fuel ih =>
    intro pos ar ar' s har h
    rw [loop] at h
    split at h
    · cases h
      exact har
    · split at h
      · cases h
      · next hr => exact ih ((returns_readRecord _ _ _ hr).1 har) h

theorem loop_fuel (k : ℕ) : ∀ {fuel pos : ℕ} {ar : ZipArchive} {s : Bytes},
    s.length < fuel → loop (fuel + k) ar pos s = loop fuel ar pos s := by
  intro fuel
  induction fuel with
  | zero =>
    intro pos ar s h
    omega
  | succ fuel ih =>
    intro pos ar s hlt
    rw [Nat.add_right_comm, loop, loop]
    split
    · rfl
    split
    · rfl
    · next ar' rest hr =>
      have hlen := (returns_readRecord _ _ _ hr).2
      rw [length_drop] at hlen
      exact ih (by omega)

end Loop

section Locals

variable {ar : ZipArchive} {payload : Bytes}

theorem prefix_createHeader (h : ZipLocalFileHeader) (s : Bytes) :
    ZipLocalFileHeader.HEADER <+: h.createHeader ++ s := by
  exact prefix_append _ _

/-- An entry whose date cannot be read, or whose name is there already, violates an
assertion. -/
theorem loop_local_error (hpl : Plain h payload) (hname : h.fileName.length < 2 ^ 16)
    (hbad : ¬ (ZipUtil.Storable h.lastModifiedAt ∧ h.fileName ∉ ar.entries.map Prod.fst))
    (fuel pos : ℕ) (rest : Bytes) :
    loop (fuel + 1) ar pos (h.createHeader ++ (payload ++ rest)) = .error .assertionViolation := by
  rw [loop_record (prefix_createHeader h _) rfl, readRecord, if_pos rfl]
  by_cases hdate : ZipUtil.Storable h.lastModifiedAt
  · obtain ⟨h', hname', hread⟩ := ZipLocalFileHeader.read_of_storable hpl hname hdate pos rest
    have hnew : h'.fileName ∈ ar.entries.map Prod.fst :=
      not_not.mp fun hnew => hbad ⟨hdate, hname' ▸ hnew⟩
    rw [bind_ok hread, bind_error (if_neg (not_not.mpr hnew))]
  · rw [bind_error (ZipLocalFileHeader.read_of_not_storable hpl hname hdate pos _)]

theorem loop_local (hpl : Plain h payload) (hname : h.fileName.length < 2 ^ 16)
    (hdate : ZipUtil.Storable h.lastModifiedAt) (hnew : h.fileName ∉ ar.entries.map Prod.fst)
    (fuel pos : ℕ) (rest : Bytes) :
    ∃ (h' : ZipLocalFileHeader) (pos' : ℕ),
      loop (fuel + 1) ar pos (h.createHeader ++ (payload ++ rest))
        = loop fuel { ar with entries := insert ar.entries h.fileName h' } pos' rest := by
  obtain ⟨h', hname', hread⟩ := ZipLocalFileHeader.read_of_storable hpl hname hdate pos rest
  rw [loop_record (prefix_createHeader h _) rfl, readRecord, if_pos rfl, bind_ok hread, hname',
    bind_check hnew]
  exact ⟨h', _, rfl⟩

def entryBytes (e : Entry) : Bytes := e.header.createHeader ++ e.payload

def storedName (e : Entry) : Bytes := e.header.fileName

def Passed (names : List Bytes) (log : List Entry) : Prop :=
  (names ++ log.map storedName).Nodup ∧ ∀ e ∈ log, ZipUtil.Storable e.header.lastModifiedAt

theorem passed_cons (hdate : ZipUtil.Storable e.header.lastModifiedAt)
    (hnam : names'.Perm (storedName e :: names)) : Passed names (e :: log) ↔ Passed names' log := by
  rw [Passed, Passed, ((hnam.append_right _).trans perm_middle.symm).nodup_iff, forall_mem_cons]
  simp only [hdate, true_and, map_cons]

theorem loop_locals {log : List Entry} (hpl : ∀ e ∈ log, Plain e.header e.payload)
    (hname : ∀ e ∈ log, (storedName e).length < 2 ^ 16) :
    ∀ {ar : ZipArchive}, (ar.entries.map Prod.fst).Nodup → ∀ (fuel pos : ℕ) (rest : Bytes),
      (Passed (ar.entries.map Prod.fst) log →
        ∃ (ar' : ZipArchive) (pos' : ℕ), ar'.infos = ar.infos ∧ ar'.disks = ar.disks ∧
          (ar'.entries.map Prod.fst).Perm (ar.entries.map Prod.fst ++ log.map storedName) ∧
          loop (fuel + log.length) ar pos (log.flatMap entryBytes ++ rest)
            = loop fuel ar' pos' rest) ∧
      (¬ Passed (ar.entries.map Prod.fst) log →
        loop (fuel + log.length) ar pos (log.flatMap entryBytes ++ rest)
          = .error .assertionViolation) := by
  induction log with
  | nil =>
    intro ar hnd fuel pos rest
    refine ⟨fun _ => ⟨ar, pos, rfl, rfl, by simp, rfl⟩, fun hnot => absurd ?_ hnot⟩
    exact ⟨by simpa using hnd, nofun⟩
  | cons e log ih =>
    intro ar hnd fuel pos rest
    have hbyt : (e :: log).flatMap entryBytes ++ rest
        = e.header.createHeader ++ (e.payload ++ (log.flatMap entryBytes ++ rest)) := by
      simp [entryBytes]
    obtain ⟨hpl₁, hpl⟩ := forall_mem_cons.mp hpl
    obtain ⟨hname₁, hname⟩ := forall_mem_cons.mp hname
    rw [hbyt, length_cons, ← Nat.add_assoc]
    by_cases hgood : ZipUtil.Storable e.header.lastModifiedAt ∧
        e.header.fileName ∉ ar.entries.map Prod.fst
    · obtain ⟨h', pos', hloop⟩ := loop_local hpl₁ hname₁ hgood.1 hgood.2 (fuel + log.length) pos
        (log.flatMap entryBytes ++ rest)
      -- the names are those of before and the new one
      have hperm := map_fst_insert_perm hgood.2 h'
      have hrest := @ih hpl hname { ar with entries := insert ar.entries e.header.fileName h' }
        (hperm.nodup_iff.mpr (nodup_cons.mpr ⟨hgood.2, hnd⟩)) fuel pos' rest
      rw [hloop, passed_cons hgood.1 hperm]
      refine ⟨fun hpas => ?_, hrest.2⟩
      obtain ⟨ar', pos'', hinf, hdis, hent, hloop'⟩ := hrest.1 hpas
      refine ⟨ar', pos'', hinf, hdis, hent.trans ?_, hloop'⟩
      exact (hperm.append_right _).trans perm_middle.symm
    · refine ⟨fun ⟨hn, hd⟩ => absurd ⟨hd e mem_cons_self, fun hmem => ?_⟩ hgood, fun _ => ?_⟩
      · exact (nodup_append.mp hn).2.2 _ hmem _ mem_cons_self rfl
      · exact loop_local_error hpl₁ hname₁ hgood _ _ _

end Locals

section Central

variable {ar : ZipArchive}

theorem loop_info {i : ZipFileInfo} (hname : i.fileName.length < 2 ^ 16)
    (hdate : ZipUtil.Storable i.lastModifiedAt) (hnew : i.fileName ∉ ar.infos.map Prod.fst)
    (fuel pos : ℕ) (rest : Bytes) :
    ∃ (ar' : ZipArchive) (pos' : ℕ), ar'.disks = ar.disks ∧
      ar'.entries.map Prod.fst = ar.entries.map Prod.fst ∧
      (ar'.infos.map Prod.fst).Perm (i.fileName :: ar.infos.map Prod.fst) ∧
      loop (fuel + 1) ar pos (i.createHeader ++ rest) = loop fuel ar' pos' rest := by
  obtain ⟨i', hname', hread⟩ := ZipFileInfo.read_of_storable hname hdate rest
  have hhd : ZipFileInfo.HEADER <+: i.createHeader ++ rest := by
    simp only [ZipFileInfo.createHeader, append_assoc]
    exact prefix_append _ _
  rw [loop_record hhd rfl, readRecord, if_neg (by decide), if_pos rfl, bind_ok hread, hname',
    bind_check hnew]
  refine ⟨_, _, ?_, ?_, ?_, rfl⟩
  · rfl
  · simp
  · exact map_fst_insert_perm hnew i'

theorem loop_infos {infos : List ZipFileInfo} (hname : ∀ i ∈ infos, i.fileName.length < 2 ^ 16)
    (hdate : ∀ i ∈ infos, ZipUtil.Storable i.lastModifiedAt) :
    ∀ {ar : ZipArchive}, (ar.infos.map Prod.fst ++ infos.map ZipFileInfo.fileName).Nodup →
      ∀ (fuel pos : ℕ) (rest : Bytes), ∃ (ar' : ZipArchive) (pos' : ℕ),
        ar'.disks = ar.disks ∧ ar'.entries.map Prod.fst = ar.entries.map Prod.fst ∧
        loop (fuel + infos.length) ar pos (infos.flatMap ZipFileInfo.createHeader ++ rest)
          = loop fuel ar' pos' rest := by
  induction infos with
  | nil => exact fun _ fuel pos rest => ⟨_, pos, rfl, rfl, rfl⟩
  | cons i infos ih =>
    intro ar hnd fuel pos rest
    have hnew : i.fileName ∉ ar.infos.map Prod.fst := by
      intro hmem
      exact (nodup_append.mp hnd).2.2 _ hmem _ mem_cons_self rfl
    obtain ⟨ar₁, pos₁, hdis₁, hent₁, hperm₁, hloop₁⟩ := loop_info (hname i mem_cons_self)
      (hdate i mem_cons_self) hnew (fuel + infos.length) pos
      (infos.flatMap ZipFileInfo.createHeader ++ rest)
    have hnd₁ : (ar₁.infos.map Prod.fst ++ infos.map ZipFileInfo.fileName).Nodup := by
      refine ((hperm₁.append_right _).trans perm_middle.symm).nodup_iff.mpr hnd
    obtain ⟨ar₂, pos₂, hdis₂, hent₂, hloop₂⟩ :=
      ih (fun j hj => hname j (mem_cons_of_mem _ hj))
        (fun j hj => hdate j (mem_cons_of_mem _ hj)) hnd₁ fuel pos₁ rest
    refine ⟨ar₂, pos₂, hdis₂.trans hdis₁, hent₂.trans hent₁, ?_⟩
    rw [flatMap_cons, append_assoc, length_cons, ← Nat.add_assoc, hloop₁, hloop₂]

theorem loop_central {i : ZipArchiveInfo} (hcom : i.comment.length < 2 ^ 16)
    (hdis : ar.disks = []) (fuel pos : ℕ) :
    ∃ ar' : ZipArchive, ar'.entries = ar.entries ∧
      loop (fuel + 2) ar pos i.createHeader = .ok ar' := by
  obtain ⟨i', hread⟩ := ZipArchiveInfo.read_createHeader hcom []
  rw [append_nil] at hread
  have hhd : ZipArchiveInfo.HEADER <+: i.createHeader := by
    simp only [ZipArchiveInfo.createHeader, append_assoc]
    exact prefix_append _ _
  refine ⟨{ ar with disks := insert ar.disks 0 i' }, rfl, ?_⟩
  rw [loop_record hhd rfl, readRecord, if_neg (by decide), if_neg (by decide), if_pos rfl,
    bind_ok hread, bind_check (by simp [hdis])]
  exact if_pos (by simp)

end Central

/-! ### What has been written on a seekable output -/

open Compress

section Written

variable {env : Env}

variable {st : Compress} {comment : Bytes}

theorem plain_of_writes {out payload content : Bytes}
    (h : Writes env st source out hdr payload content)
    (hraw : source ≠ .raw) (hseek : st.seekableOut = true) (hpay : payload.length < 2 ^ 32) :
    Plain hdr payload := by
  cases h with
  | raw _ => exact absurd rfl hraw
  | @stream _ _ _ _ hdr₀ _ hfr _ _ hwr =>
    have hsrc := ZipLocalFileHeader.searchCRCAndSizesAfterData_false (hdr₀.setStartPos st.offset)
    rcases writeStream_ok hwr with ⟨hdir, rfl, rfl, -⟩ | ⟨hnot, -⟩ | ⟨-, hmet, -, rfl, -⟩
    · have hmet : hdr₀.compressionMethod = CM_STORE := by
        rw [ZipLocalFileHeader.isDirectory, Bool.and_eq_true, Bool.and_eq_true, beq_iff_eq,
          beq_iff_eq] at hdir
        exact hdir.1.2
      exact ⟨hfr.version, hfr.hostSystem, .inr hmet, hsrc, rfl, hpay,
        hfr.extraField⟩
    · rw [hseek] at hnot
      cases hnot
    · exact ⟨hfr.version, hfr.hostSystem, hmet, hsrc, Nat.mod_eq_of_lt hpay,
        hpay, hfr.extraField⟩

theorem out_of_adds (hadds : Adds env (· ≠ .raw) (new true comment) st)
    (hsize : st.out.length < 2 ^ 32) (hname : ∀ e ∈ st.log, (storedName e).length < 2 ^ 16) :
    st.offset = st.out.length ∧ st.out = st.log.flatMap entryBytes ∧
      ∀ e ∈ st.log, Plain e.header e.payload := by
  induction hadds with
  | refl => exact ⟨rfl, rfl, nofun⟩
  | @tail st st' hadds hstep ih =>
    have hseek : st.seekableOut = true := seekableOut_adds hadds
    obtain ⟨hraw, hwri⟩ := hstep
    obtain ⟨hlog, hnew⟩ := forall_log_finish.mp hname
    obtain ⟨hoff, hout, hpl⟩ := ih (hwri.length_le.trans_lt hsize) hlog
    obtain ⟨info, rfl, hinfo⟩ := hwri.out_eq hoff
    change (_ ++ info).length < 2 ^ 32 at hsize
    have hpay : _ := plain_of_writes hwri hraw hseek (by
      simp only [length_append] at hsize
      omega)
    -- the sizes are in the header
    rw [hpay.search] at hinfo
    obtain rfl := length_eq_zero_iff.mp hinfo
    refine ⟨(offset_finish_iff hwri hsize hoff hpay.compressedSize).mpr hnew, ?_,
      forall_log_finish.mpr ⟨hpl, ?_⟩⟩
    · show st.out ++ _ ++ _ ++ [] = (st.log ++ [_]).flatMap entryBytes
      rw [flatMap_append, ← hout]
      simp [entryBytes]
    · exact ⟨hpay.version, hpay.hostSystem, hpay.method, hpay.search,
        hpay.compressedSize, hpay.payload_lt, hpay.extraField⟩

/-- The central directory names no entry twice that was written once. -/
theorem infos_subperm {A : Source → Prop} (hadds : Adds env A (new seekable comment) st) :
    (st.infos.map fun p => p.2.fileName).Subperm (st.log.map storedName) := by
  induction hadds with
  | refl => exact nil_subperm
  | @tail st st' _ hstep ih =>
    obtain @⟨source, key, out, payload, content, hdr, _, _⟩ := hstep
    show ((insert st.infos key
      (ZipFileInfo.ofHeader (hdr.setStartPos st.offset) st.offset)).map _).Subperm
        ((st.log ++ [_]).map storedName)
    rw [map_append]
    rcases insert_cases st.infos key
      (ZipFileInfo.ofHeader (hdr.setStartPos st.offset) st.offset) with ⟨heq, -⟩ | hperm
    · rw [heq]
      exact ih.trans (sublist_append_left _ _).subperm
    · refine ((hperm.map _).subperm).trans ?_
      exact ((subperm_cons _).mpr ih).trans (perm_append_singleton _ _).symm.subperm

theorem comment_central_lt (st : Compress) : st.central.comment.length < 2 ^ 16 := by
  rw [central]
  dsimp only
  split
  · omega
  · decide

theorem ofStream_archive (hadds : Adds env (· ≠ .raw) (new true comment) st)
    (hsize : st.out.length < 2 ^ 32) (hname : ∀ e ∈ st.log, (storedName e).length < 2 ^ 16) :
    (Passed [] st.log → ∃ ar : ZipArchive, ofStream st.archive = .ok ar ∧
      (ar.entries.map Prod.fst).Perm (st.log.map storedName)) ∧
    (¬ Passed [] st.log → ofStream st.archive = .error .assertionViolation) := by
  obtain ⟨-, hout, hpl⟩ := out_of_adds hadds hsize hname
  have hind := (indexed_new true comment).adds hadds
  -- as much fuel as there are records, and more
  have hfuel : ofStream st.archive
      = loop (st.archive.length + 2 + st.infos.length + st.log.length) {} 0 st.archive := by
    rw [ofStream, ← loop_fuel (1 + st.infos.length + st.log.length) (Nat.lt_succ_self _)]
    congr 1
    omega
  have hbyt : st.archive = st.log.flatMap entryBytes ++
      ((st.infos.map Prod.snd).flatMap ZipFileInfo.createHeader ++ st.central.createHeader) := by
    rw [archive, ← hout, centralDirectory, flatMap_map, append_assoc]
  have hloc := @loop_locals st.log hpl hname {} nodup_nil
    (st.archive.length + 2 + st.infos.length) 0
    ((st.infos.map Prod.snd).flatMap ZipFileInfo.createHeader ++ st.central.createHeader)
  rw [← hbyt, ← hfuel] at hloc
  refine ⟨fun hgood => ?_, hloc.2⟩
  obtain ⟨ar₁, pos₁, hinf₁, hdis₁, hperm, hloop₁⟩ := hloc.1 hgood
  -- the records of the central directory are those of entries
  have hrec : ∀ i ∈ st.infos.map Prod.snd,
      i.fileName.length < 2 ^ 16 ∧ ZipUtil.Storable i.lastModifiedAt := by
    intro i hi
    obtain ⟨p, hp, rfl⟩ := mem_map.mp hi
    obtain ⟨e, he, rfl⟩ := hind.infos p hp
    exact ⟨hname e he, hgood.2 e he⟩
  have hnd : (ar₁.infos.map Prod.fst ++
      (st.infos.map Prod.snd).map ZipFileInfo.fileName).Nodup := by
    obtain ⟨l, hperm', hsub⟩ := infos_subperm hadds
    rw [hinf₁, map_map]
    exact hperm'.nodup_iff.mp (hgood.1.sublist hsub)
  obtain ⟨ar₂, pos₂, hdis₂, hent₂, hloop₂⟩ := loop_infos (fun i hi => (hrec i hi).1)
    (fun i hi => (hrec i hi).2) hnd (st.archive.length + 2) pos₁ st.central.createHeader
  obtain ⟨ar₃, hent₃, hloop₃⟩ := loop_central (comment_central_lt st)
    (hdis₂.trans hdis₁) st.archive.length pos₂
  rw [length_map] at hloop₂
  refine ⟨ar₃, by rw [hloop₁, hloop₂, hloop₃], ?_⟩
  rw [hent₃, hent₂]
  exact hperm

/-- **The archives that are read back.**  Calls that add files and directories on a seekable
output: the archive is read, with the names stored, if there are less than 4 GiB of entries and not
too many of them, no stored name comes twice, the stored names are short and the dates are not
stored as a 29th of February 2100.  Below 4 GiB no other archive is read. -/
theorem ofStream_close_iff {comment : Bytes} {calls : List Call} {st : Compress}
    (hrun : Run env (new true comment) calls st) (hcalls : ∀ c ∈ calls, c.source ≠ .raw) :
    (st.out.length < 2 ^ 32 ∧ ∃ archive ar, st.close = .ok archive ∧ ofStream archive = .ok ar ∧
      ∀ n, n ∈ ar.entries.map Prod.fst ↔ n ∈ st.log.map storedName) ↔
    st.out.length < 2 ^ 32 ∧ st.files.length < 65536 ∧ (st.log.map storedName).Nodup ∧
      ∀ e ∈ st.log, (storedName e).length < 2 ^ 16 ∧ ZipUtil.Storable e.header.lastModifiedAt := by
  refine and_congr_right fun hsize => ?_
  have hadds : Adds env (· ≠ .raw) (new true comment) st := hrun.adds nofun hcalls
  have hind := (indexed_new true comment).adds hadds
  rw [hind.close_eq]
  by_cases hfil : st.files.length < 65536
  · rw [if_pos hfil]
    constructor
    · rintro ⟨_, ar, ⟨⟩, hread, hnam⟩
      -- the names that have been read are short
      have hsh : ShortNames ar := shortNames_loop shortNames_empty hread
      have hname : ∀ e ∈ st.log, (storedName e).length < 2 ^ 16 :=
        fun e he => hsh _ ((hnam _).mpr (mem_map_of_mem he))
      have hgood : Passed [] st.log := by
        by_contra hnot
        rw [(ofStream_archive hadds hsize hname).2 hnot] at hread
        cases hread
      exact ⟨hfil, hgood.1, fun e he => ⟨hname e he, hgood.2 e he⟩⟩
    · rintro ⟨-, hnd, hgood⟩
      obtain ⟨ar, hread, hperm⟩ := (ofStream_archive hadds hsize fun e he => (hgood e he).1).1
        ⟨hnd, fun e he => (hgood e he).2⟩
      exact ⟨_, ar, rfl, hread, fun n => hperm.mem_iff⟩
  · rw [if_neg hfil]
    simp [hfil]

/-- The file `a` and the directory `d` are read back. -/
theorem ofStream_close_iff_fileAndDirectory :
    ∃ archive ar, (after true fileAndDirectory).close = .ok archive ∧ ofStream archive = .ok ar ∧
      ∀ n, n ∈ ar.entries.map Prod.fst ↔ n ∈ (after true fileAndDirectory).log.map storedName := by
  have hcal : ∀ c ∈ fileAndDirectory, c.source ≠ .raw := by decide
  refine ((ofStream_close_iff (run_fileAndDirectory true) hcal).mpr
    ⟨by decide, by decide, by decide, ?_⟩).2
  decide

def sameStoredName : List Call :=
  [.addFile (some [0x61]) firstDay { name := [0x61] } .deflate .normal,
    .addFile (some [0x62]) firstDay { name := [0x61], absolute := true } .deflate .normal]

/-- The writer takes the files `a` and `/a` for two entries, and stores both as `a`; the
reader asserts that a name comes once. -/
theorem ofStream_close_asserts :
    Run Env.stored (new true []) sameStoredName (after true sameStoredName) ∧
      (after true sameStoredName).log.map Entry.key = [[0x61], [0x2F, 0x61]] ∧
      (after true sameStoredName).log.map storedName = [[0x61], [0x61]] ∧
      (after true sameStoredName).close = .ok (after true sameStoredName).archive ∧
      ofStream (after true sameStoredName).archive = .error .assertionViolation := by
  have hrun : Run Env.stored (new true []) sameStoredName (after true sameStoredName) :=
    .cons rfl (.cons rfl (.nil _))
  have hcal : ∀ c ∈ sameStoredName, c.source ≠ .raw := by decide
  refine ⟨hrun, by decide, by decide, if_pos (by decide), ?_⟩
  apply (ofStream_archive (hrun.adds nofun hcal) (by decide) (by decide)).2
  exact fun hpas => absurd hpas.1 (by decide)

end Written

end ZipArchive

end Poco.Zip
