import Mathlib.Data.List.Nodup
import Poco.Lib.Outcome
import Poco.Lib.SortedAssoc
import Poco.Zip.Header

/-!
# Writing ZIP files

`Compress` of `Zip/src/Compress.cpp`, with the stream `ZipOutputStream` that it writes an
entry with.  The output is the list of bytes written; on a seekable output the header of an
entry is written again when the data is complete, at the offset where `_offset` says that the
entry begins.

`_offset` is not taken from the stream.  It is computed from the header of the last entry.

## Main definitions

* `Compress`: the members, and a log of the entries written, which is not a part of the program.
* `writeStream`: `ZipOutputStream`: the output after it, the header as it has become, and the data.
* `addFile`, `addDirectory`, `addFileRaw`, `close`: the functions; `Run` is a sequence of calls.
* `Reliable`: what the header of an entry depends on.  The header of a file is written again on a
  seekable output only, that of a raw entry comes from the caller.
* `Settled`: the offset is the number of bytes written, now and when each entry began, and the
  headers are right.
* `Consistent`: besides, each record of the central directory describes its entry, and each entry
  has one.

## Main results

* `Writes.faithful_iff`: a deflated file that is not empty has a right header only on a seekable
  output.
* `settled_iff`: when the offset and the headers are right.
* `close_consistent_iff`: the archives that are consistent.
-/

namespace Poco.Zip

open List ZipLocalFileHeader

structure Env where
  /-- The directories of `Path::home`. -/
  home : List Bytes
  /-- The bytes that the deflate algorithm makes of a text at a level, without the header and
  the trailer of zlib. -/
  deflate : UInt8 → Bytes → Bytes
  crc32 : Bytes → ℕ
  crc32_nil : crc32 [] = 0
  crc32_lt : ∀ s, crc32 s < 2 ^ 32

def crcByte (crc : UInt32) (b : UInt8) : UInt32 :=
  Nat.repeat (fun c => if c &&& 1 = 1 then (c >>> 1) ^^^ 0xEDB88320 else c >>> 1) 8
    (crc ^^^ b.toUInt32)

/-- An environment to compute with: the checksum of zlib, and a deflate algorithm that makes
one stored block. -/
def Env.stored : Env where
  home := []
  deflate _ s := [0x01] ++ Bytes.bytesLE 2 s.length ++ Bytes.bytesLE 2 (0xFFFF - s.length) ++ s
  crc32 s := (s.foldl crcByte 0xFFFFFFFF ^^^ 0xFFFFFFFF).toNat
  crc32_nil := rfl
  crc32_lt _ := UInt32.toNat_lt _

/-- `ZipException`: the text before and after the name of the entry. -/
structure ZipException where
  before : String
  name : Bytes := []
  after : String := ""
  deriving DecidableEq, Repr

inductive CompressFailure where
  | zipException (e : ZipException)
  | notImplementedException (message : String)
  | assertionViolation
  deriving DecidableEq, Repr

def ILLEGAL_PATH : Bytes := [0x2E, 0x2E]

def verifyZipEntryFileName (fn : Bytes) : Except CompressFailure Unit :=
  if 0x5C ∈ fn then .error (.zipException ⟨"Illegal entry name ", fn, " containing \\"⟩)
  else if fn = [0x2F] then .error (.zipException ⟨"Illegal entry name /", [], ""⟩)
  else if fn = [] then .error (.zipException ⟨"Illegal empty entry name", [], ""⟩)
  else if ILLEGAL_PATH <:+: fn then
    .error (.zipException ⟨"Illegal entry name ", fn, " containing .."⟩)
  else .ok ()

/-! ### The stream of an entry -/

/-- Writing at a position: `seekp` to it, `write`, and `seekp` to the end. -/
def overwrite (pos : ℕ) (bytes out : Bytes) : Bytes :=
  out.take pos ++ bytes ++ out.drop (pos + bytes.length)

def writeStream (env : Env) (seekable : Bool) (out : Bytes) (hdr : ZipLocalFileHeader)
    (content : Bytes) :
    Except CompressFailure (Bytes × ZipLocalFileHeader × Bytes) :=
  if hdr.isEncrypted then .error (.notImplementedException "Encryption not supported")
  else if hdr.isDirectory then
    -- only the header
    let hdr := (hdr.setSearchCRCAndSizesAfterData false).setCRCAndSizes 0 0 0
    .ok (out ++ hdr.createHeader, hdr, [])
  else if hdr.compressionMethod ≠ CM_DEFLATE ∧ hdr.compressionMethod ≠ CM_STORE then
    .error (.notImplementedException "Unsupported compression method")
  else
    let hdr := hdr.setSearchCRCAndSizesAfterData (!seekable)
    let payload :=
      if hdr.compressionMethod = CM_DEFLATE then env.deflate hdr.getCompressionLevel content
      else content
    let out := out ++ hdr.createHeader ++ payload
    if hdr.searchCRCAndSizesAfterData then
      .ok (out ++ ZipDataInfo.getRawHeader (env.crc32 content) payload.length content.length,
        hdr, payload)
    else if seekable then
      let hdr := hdr.setCRCAndSizes (env.crc32 content) payload.length content.length
      .ok (overwrite hdr.startPos hdr.createHeader out, hdr, payload)
    else .error .assertionViolation

/-! ### The state -/

inductive Source where
  | file (cm : CompressionMethod)
  | directory
  | raw
  deriving DecidableEq, Repr

structure Entry where
  source : Source
  /-- The path by which the maps of the writer know the entry. -/
  key : Bytes
  /-- The number of bytes before the entry in the output. -/
  start : ℕ
  /-- The header that goes to the maps. -/
  header : ZipLocalFileHeader
  /-- The data written after the header. -/
  payload : Bytes
  /-- The text that the data stands for. -/
  content : Bytes

structure Compress where
  out : Bytes
  seekableOut : Bool
  files : List (Bytes × ZipLocalFileHeader)
  infos : List (Bytes × ZipFileInfo)
  offset : ℕ
  comment : Bytes
  log : List Entry

namespace Compress

/-- The constructor of `Compress`, and `setZipComment`. -/
def new (seekableOut : Bool) (comment : Bytes) : Compress :=
  ⟨[], seekableOut, [], [], 0, comment, []⟩

def MAX_ENTRIES : ℕ := 65535

def maximumReached : CompressFailure :=
  .zipException ⟨"Maximum number of entries for a ZIP file reached: 65535", [], ""⟩

/-- What the three ways to add an entry do in the end: the new offset, and the entries of the
two maps. -/
def finish (st : Compress) (source : Source) (key out : Bytes) (hdr : ZipLocalFileHeader)
    (payload content : Bytes) : Compress :=
  let hdr := hdr.setStartPos st.offset
  let offset := hdr.endPos % 2 ^ 32
  { st with
    out := out
    offset :=
      if hdr.searchCRCAndSizesAfterData then (offset + ZipDataInfo.getFullHeaderSize) % 2 ^ 32
      else offset
    files := SortedAssoc.insert st.files key hdr
    infos := SortedAssoc.insert st.infos key (ZipFileInfo.ofHeader hdr st.offset)
    log := st.log ++ [⟨source, key, st.out.length, hdr, payload, content⟩] }

def addStream (env : Env) (st : Compress) (source : Source) (key : Bytes)
    (hdr : Option ZipLocalFileHeader) (content : Bytes) : Except CompressFailure Compress :=
  match hdr with
  | none => .error .assertionViolation
  | some hdr =>
    match writeStream env st.seekableOut st.out (hdr.setStartPos st.offset) content with
    | .error e => .error e
    | .ok (out, hdr, payload) => .ok (st.finish source key out hdr payload content)

/-- `Compress::addEntry`.  An input is `none` if its stream is not good. -/
def addEntry (env : Env) (st : Compress) (input : Option Bytes) (lastModifiedAt : DateTime)
    (fileName : Path) (cm : CompressionMethod) (cl : CompressionLevel) :
    Except CompressFailure Compress :=
  match verifyZipEntryFileName fileName.buildUnix with
  | .error e => .error e
  | .ok _ =>
    if st.files.length ≥ MAX_ENTRIES then .error maximumReached
    else match input with
      | none => .error (.zipException ⟨"Invalid input stream", [], ""⟩)
      | some content =>
        addStream env st (.file cm) fileName.buildUnix
          (ZipLocalFileHeader.create env.home fileName lastModifiedAt cm cl) content

/-- `Compress::addDirectory`.  The parents come first; a path has less directories than its
fuel. -/
def addDirectoryFrom (env : Env) : ℕ → Compress → Path → DateTime → Except CompressFailure Compress
  | 0, _, _, _ => .error .assertionViolation
  | fuel + 1, st, entryName, lastModifiedAt =>
    let fileStr := entryName.buildUnix
    if !entryName.isDirectory then .error (.zipException ⟨"Not a directory: ", fileStr, ""⟩)
    else if fileStr ∈ st.files.map Prod.fst then .ok st
    else if st.files.length ≥ MAX_ENTRIES then .error maximumReached
    else if fileStr = [0x2F] then .error (.zipException ⟨"Illegal entry name /", [], ""⟩)
    else if fileStr = [] then .error (.zipException ⟨"Illegal empty entry name", [], ""⟩)
    else if ILLEGAL_PATH <:+: fileStr then
      .error (.zipException ⟨"Illegal entry name ", fileStr, " containing .."⟩)
    else
      let parents :=
        if entryName.depth > 1 then addDirectoryFrom env fuel st entryName.parent lastModifiedAt
        else .ok st
      match parents with
      | .error e => .error e
      | .ok st =>
        addStream env st .directory fileStr
          (ZipLocalFileHeader.create env.home entryName lastModifiedAt .store .normal) []

def addDirectory (env : Env) (st : Compress) (entryName : Path) (lastModifiedAt : DateTime) :
    Except CompressFailure Compress :=
  addDirectoryFrom env (entryName.depth + 1) st entryName lastModifiedAt

def addFile (env : Env) (st : Compress) (input : Option Bytes) (lastModifiedAt : DateTime)
    (fileName : Path) (cm : CompressionMethod) (cl : CompressionLevel) :
    Except CompressFailure Compress :=
  if !fileName.isFile then .error (.zipException ⟨"Not a file: ", fileName.buildUnix, ""⟩)
  else
    let parents :=
      if fileName.depth > 1 then addDirectory env st fileName.parent lastModifiedAt else .ok st
    match parents with
    | .error e => .error e
    | .ok st => addEntry env st input lastModifiedAt fileName cm cl

/-- `Compress::addFileRaw`: copies an entry with the header `h` from the stream `input`.  The
loop over chunks copies the compressed size, or as much as there is.  The text that the data
stands for is `content`. -/
def addFileRaw (env : Env) (st : Compress) (input : Bytes) (h : ZipLocalFileHeader)
    (fileName : Path) (content : Bytes) : Except CompressFailure Compress :=
  let fn := fileName.buildUnix
  match verifyZipEntryFileName fn with
  | .error e => .error e
  | .ok _ =>
    if st.files.length ≥ MAX_ENTRIES then .error maximumReached
    else if input.length < h.getDataStartPos then
      .error (.zipException ⟨"Invalid input stream", [], ""⟩)
    else match h.setFileName env.home fn h.isDirectory with
      | none => .error .assertionViolation
      | some hdr =>
        let data := input.drop h.getDataStartPos
        let payload := data.take hdr.compressedSize
        let rest := data.drop hdr.compressedSize
        let out := st.out ++ hdr.createHeader ++ payload
        if hdr.searchCRCAndSizesAfterData then
          if rest.take 4 = ZipDataInfo.HEADER then
            let info := (rest.take ZipDataInfo.getFullHeaderSize).rightpad
              ZipDataInfo.getFullHeaderSize 0
            .ok (st.finish .raw fn (out ++ info) hdr payload content)
          else .error .assertionViolation
        else .ok (st.finish .raw fn out hdr payload content)

def centralDirectory (st : Compress) : Bytes :=
  st.infos.flatMap fun e => e.2.createHeader

def central (st : Compress) : ZipArchiveInfo where
  numberOfEntries := st.infos.length % 2 ^ 16
  centralDirectorySize := st.centralDirectory.length % 2 ^ 32
  headerOffset := st.offset
  comment := if st.comment ≠ [] ∧ st.comment.length ≤ 65535 then st.comment else []

def archive (st : Compress) : Bytes :=
  st.out ++ st.centralDirectory ++ st.central.createHeader

def close (st : Compress) : Except CompressFailure Bytes :=
  if st.infos.length = st.files.length ∧ st.files.length < 65536 then .ok st.archive
  else .error .assertionViolation

/-! ### Runs -/

inductive Call where
  | addFile (input : Option Bytes) (lastModifiedAt : DateTime) (fileName : Path)
      (cm : CompressionMethod) (cl : CompressionLevel)
  | addDirectory (entryName : Path) (lastModifiedAt : DateTime)
  | addFileRaw (input : Bytes) (h : ZipLocalFileHeader) (fileName : Path)
      (content : Bytes)

def call (env : Env) (st : Compress) : Call → Except CompressFailure Compress
  | .addFile input lastModifiedAt fileName cm cl =>
    st.addFile env input lastModifiedAt fileName cm cl
  | .addDirectory entryName lastModifiedAt => st.addDirectory env entryName lastModifiedAt
  | .addFileRaw input h fileName content => st.addFileRaw env input h fileName content

def Call.source : Call → Source
  | .addFile _ _ _ cm _ => .file cm
  | .addDirectory _ _ => .directory
  | .addFileRaw _ _ _ _ => .raw

inductive Run (env : Env) : Compress → List Call → Compress → Prop where
  | nil (st : Compress) : Run env st [] st
  | cons {st st' st'' : Compress} {c : Call} {cs : List Call} (hc : st.call env c = .ok st')
      (hcs : Run env st' cs st'') : Run env st (c :: cs) st''

/-! ### What is written for an entry -/

structure Fresh (source : Source) (h : ZipLocalFileHeader) : Prop where
  version : h.version = 20
  hostSystem : h.hostSystem = HS_UNIX
  crc32 : h.crc32 = 0
  compressedSize : h.compressedSize = 0
  uncompressedSize : h.uncompressedSize = 0
  extraField : h.extraField = []
  file : ∀ cm, source = .file cm → h.compressionMethod = cm.code
  directory : source = .directory → h.compressionMethod = CM_STORE

variable {fileName : Path} {seekable : Bool} {content key out payload : Bytes}
  {hdr : ZipLocalFileHeader} {st st' : Compress} {source : Source}

variable {lastModifiedAt : DateTime} {cm : CompressionMethod}

theorem fresh_create
    (hcre : ZipLocalFileHeader.create home fileName lastModifiedAt cm cl = some h) :
    (fileName.isFile = true → Fresh (.file cm) h) ∧
      (fileName.isFile = false → Fresh .directory h) := by
  rw [create] at hcre
  rw [Option.map_eq_some_iff] at hcre
  obtain ⟨h', hset, rfl⟩ := hcre
  obtain ⟨-, hhost, hext, hfile, hdir⟩ := setFileName_eq_some hset
  have hzero : h'.crc32 = 0 ∧ h'.compressedSize = 0 ∧ h'.uncompressedSize = 0 := by
    cases hd : (fileName.setDevice []).isDirectory with
    | false => exact hfile hd
    | true => exact hdir hd
  have hsame : (fileName.setDevice []).isFile = fileName.isFile := rfl
  constructor
  · intro hisF
    rw [hsame, if_pos hisF]
    exact ⟨rfl, hhost, hzero.1, hzero.2.1, hzero.2.2, hext, by rintro _ ⟨⟩; rfl, nofun⟩
  · intro hisF
    rw [hsame, if_neg (Bool.eq_false_iff.mp hisF)]
    exact ⟨rfl, hhost, hzero.1, hzero.2.1, hzero.2.2, hext, nofun, fun _ => rfl⟩

/-- What `ZipOutputStream` can do: write a header only; write the sizes after the data; or
write the header again. -/
theorem writeStream_ok (h : writeStream env seekable out hdr content = .ok (out', hdr', payload)) :
    (hdr.isDirectory = true ∧ payload = [] ∧
      hdr' = (hdr.setSearchCRCAndSizesAfterData false).setCRCAndSizes 0 0 0 ∧
      out' = out ++ hdr'.createHeader) ∨ (seekable = false ∧ hdr.compressionMethod = CM_DEFLATE ∧
      hdr' = hdr.setSearchCRCAndSizesAfterData true ∧
      out' = out ++ hdr'.createHeader ++ payload ++
        ZipDataInfo.getRawHeader (env.crc32 content) payload.length content.length) ∨
    (seekable = true ∧ (hdr.compressionMethod = CM_DEFLATE ∨ hdr.compressionMethod = CM_STORE) ∧
      (hdr.compressionMethod = CM_STORE → payload = content) ∧
      hdr' = (hdr.setSearchCRCAndSizesAfterData false).setCRCAndSizes (env.crc32 content)
        payload.length content.length ∧
      out' = overwrite hdr.startPos hdr'.createHeader
        (out ++ (hdr.setSearchCRCAndSizesAfterData false).createHeader ++ payload)) := by
  rw [writeStream, Except.ite_error_eq_ok] at h
  obtain ⟨-, h⟩ := h
  split at h
  · next hdir =>
    cases h
    exact .inl ⟨hdir, rfl, rfl, rfl⟩
  obtain ⟨hmet, h⟩ := Except.ite_error_eq_ok.mp h
  right
  cases seekable with
  | false =>
    left
    simp only [Bool.not_false] at h
    split at h
    · next hsrc =>
      cases h
      refine ⟨rfl, ?_, rfl, rfl⟩
      rw [searchCRCAndSizesAfterData, Bool.and_eq_true, beq_iff_eq] at hsrc
      exact hsrc.1
    · cases h
  | true =>
    right
    simp only [Bool.not_true] at h
    rw [searchCRCAndSizesAfterData_false] at h
    cases h
    refine ⟨rfl, ?_, ?_, rfl, rfl⟩
    · rw [not_and_or, not_not, not_not] at hmet
      exact hmet
    · intro hsto
      exact if_neg fun h => absurd (hsto.symm.trans h) (by decide)

/-- What is written for an entry: the output after it, the header, the data and the text that
the data stands for. -/
inductive Writes (env : Env) (st : Compress) :
    Source → Bytes → ZipLocalFileHeader → Bytes → Bytes → Prop where
  | stream {source : Source} {out payload content : Bytes} {hdr hdr' : ZipLocalFileHeader}
      (hfresh : Fresh source hdr) (hraw : source ≠ .raw)
      (hcontent : source = .directory → content = [])
      (hwrite : writeStream env st.seekableOut st.out (hdr.setStartPos st.offset) content
        = .ok (out, hdr', payload)) : Writes env st source out hdr' payload content
  | raw {hdr : ZipLocalFileHeader} {payload content info : Bytes}
      (hinfo : info.length
        = if hdr.searchCRCAndSizesAfterData then ZipDataInfo.getFullHeaderSize else 0) :
      Writes env st .raw (st.out ++ hdr.createHeader ++ payload ++ info) hdr payload content

/-- One more entry, from a source that satisfies `A`. -/
inductive AddsEntry (env : Env) (A : Source → Prop) (st : Compress) : Compress → Prop where
  | mk {source : Source} {key out payload content : Bytes} {hdr : ZipLocalFileHeader}
      (hsource : A source) (hwrites : Writes env st source out hdr payload content) :
      AddsEntry env A st (st.finish source key out hdr payload content)

abbrev Adds (env : Env) (A : Source → Prop) : Compress → Compress → Prop :=
  Relation.ReflTransGen (AddsEntry env A)

section Adds

variable {env : Env} {A : Source → Prop}

theorem adds_addStream {hdr : Option ZipLocalFileHeader} (hsrc : A source) (hraw : source ≠ .raw)
    (hfr : ∀ h, hdr = some h → Fresh source h) (hcon : source = .directory → content = [])
    (h : addStream env st source key hdr content = .ok st') : AddsEntry env A st st' := by
  cases hdr with
  | none => cases h
  | some hdr =>
    rw [addStream] at h
    cases hwr : writeStream env st.seekableOut st.out (hdr.setStartPos st.offset) content with
    | error e =>
      rw [hwr] at h
      cases h
    | ok r =>
      rw [hwr] at h
      cases h
      exact .mk hsrc (.stream (hfr hdr rfl) hraw hcon hwr)

theorem adds_addEntry {input : Option Bytes} (hcm : A (.file cm))
    (hfile : fileName.isFile = true)
    (h : st.addEntry env input lastModifiedAt fileName cm cl = .ok st') :
    AddsEntry env A st st' := by
  unfold addEntry at h
  split at h
  · cases h
  obtain ⟨-, h⟩ := Except.ite_error_eq_ok.mp h
  split at h
  · cases h
  · refine adds_addStream hcm nofun ?_ nofun h
    intro hdr hcre
    exact (fresh_create hcre).1 hfile

theorem adds_parents [Decidable c] {r : Except CompressFailure Compress}
    (hr : r = .ok st' → Adds env A st st') (h : (if c then r else .ok st) = .ok st') :
    Adds env A st st' := by
  split at h
  · exact hr h
  · cases h
    exact .refl

theorem adds_addDirectoryFrom (hdir : A .directory) : ∀ {fuel : ℕ} {st st' : Compress}
    {entryName : Path} {lastModifiedAt : DateTime},
    addDirectoryFrom env fuel st entryName lastModifiedAt = .ok st' → Adds env A st st' := by
  intro fuel
  induction fuel with
  | zero =>
    intro st st' entryName lastModifiedAt h
    cases h
  | succ fuel ih =>
    intro st st' entryName lastModifiedAt h
    obtain ⟨hisD, h⟩ := Except.ite_error_eq_ok.mp h
    split at h
    · cases h
      exact .refl
    simp only [Except.ite_error_eq_ok] at h
    obtain ⟨-, -, -, -, h⟩ := h
    split at h
    · cases h
    · next hpar =>
      refine (adds_parents ih hpar).tail (adds_addStream hdir nofun ?_ (fun _ => rfl) h)
      intro hdr hcre
      exact (fresh_create hcre).2 (by simpa [Path.isFile, Path.isDirectory] using hisD)

theorem adds_addFileRaw (hraw : A .raw)
    (h : st.addFileRaw env input hdr fileName content = .ok st') : AddsEntry env A st st' := by
  rw [addFileRaw] at h
  split at h
  · cases h
  simp only [Except.ite_error_eq_ok] at h
  obtain ⟨-, -, h⟩ := h
  split at h
  · cases h
  next hdr' hset =>
  split at h
  · next hsrc =>
    split at h
    · cases h
      refine .mk hraw (.raw ?_)
      rw [if_pos hsrc]
      simp
    · cases h
  · next hsrc =>
    cases h
    have hwri : Writes env st .raw (st.out ++ hdr'.createHeader
        ++ (input.drop hdr.getDataStartPos).take hdr'.compressedSize ++ []) hdr'
        ((input.drop hdr.getDataStartPos).take hdr'.compressedSize) content :=
      .raw (by rw [if_neg hsrc]; rfl)
    rw [append_nil] at hwri
    exact .mk hraw hwri

theorem adds_call (hdir : A .directory) {c : Call} (hc : A c.source) (h : st.call env c = .ok st') :
    Adds env A st st' := by
  cases c with
  | addFile input lastModifiedAt fileName cm cl =>
    obtain ⟨hfile, h⟩ := Except.ite_error_eq_ok.mp h
    rw [Bool.not_eq_true, Bool.not_eq_false'] at hfile
    split at h
    · cases h
    · next hpar =>
      exact (adds_parents (adds_addDirectoryFrom hdir) hpar).tail (adds_addEntry hc hfile h)
  | addDirectory entryName lastModifiedAt => exact adds_addDirectoryFrom hdir h
  | addFileRaw input hdr fileName content => exact .single (adds_addFileRaw hc h)

theorem Run.adds (hdir : A .directory) {cs : List Call} (hcs : ∀ c ∈ cs, A c.source)
    (h : Run env st cs st') : Adds env A st st' := by
  induction h with
  | nil => exact .refl
  | cons hc _ ih =>
    exact (adds_call hdir (hcs _ mem_cons_self) hc).trans
      (ih fun c hc => hcs c (mem_cons_of_mem _ hc))

end Adds

/-! ### The invariants of a run -/

section Invariants

variable {env : Env} {A : Source → Prop}

/-- The two maps have the same keys, and the map of the central directory holds what the
headers of the log say. -/
structure Indexed (st : Compress) : Prop where
  offset_lt : st.offset < 2 ^ 32
  startPos_lt : ∀ e ∈ st.log, e.header.startPos < 2 ^ 32
  keys : st.files.map Prod.fst = st.infos.map Prod.fst
  infos : ∀ p ∈ st.infos, ∃ e ∈ st.log, p = (e.key, ZipFileInfo.ofHeader e.header e.header.startPos)
  log : (st.log.map Entry.key).Nodup →
    ∀ e ∈ st.log, (e.key, ZipFileInfo.ofHeader e.header e.header.startPos) ∈ st.infos

theorem indexed_new (seekableOut : Bool) (comment : Bytes) :
    Indexed (new seekableOut comment) :=
  ⟨Nat.two_pow_pos 32, nofun, rfl, nofun, fun _ => nofun⟩

theorem finish_offset_lt (st : Compress) (source : Source) (key out : Bytes)
    (hdr : ZipLocalFileHeader) (payload content : Bytes) :
    (st.finish source key out hdr payload content).offset < 2 ^ 32 := by
  rw [finish]
  split
  · exact Nat.mod_lt _ (by decide)
  · exact Nat.mod_lt _ (by decide)

theorem forall_log_finish {p : Entry → Prop} :
    (∀ e ∈ (st.finish source key out hdr payload content).log, p e) ↔ (∀ e ∈ st.log, p e) ∧
      p ⟨source, key, st.out.length, hdr.setStartPos st.offset, payload, content⟩ := by
  rw [finish, forall_mem_append, forall_mem_singleton]

theorem Indexed.finish (h : Indexed st) (source : Source) (key out : Bytes)
    (hdr : ZipLocalFileHeader) (payload content : Bytes) :
    Indexed (st.finish source key out hdr payload content) := by
  have hcas := SortedAssoc.insert_cases st.infos key
    (ZipFileInfo.ofHeader (hdr.setStartPos st.offset) st.offset)
  refine ⟨finish_offset_lt .., forall_log_finish.mpr ⟨h.startPos_lt, h.offset_lt⟩,
    SortedAssoc.map_fst_insert h.keys _ _ _, ?_, ?_⟩
  · intro p hp
    change p ∈ SortedAssoc.insert st.infos key _ at hp
    rcases hcas with ⟨heq, -⟩ | hperm
    · rw [heq] at hp
      obtain ⟨e, he, rfl⟩ := h.infos p hp
      exact ⟨e, mem_append_left _ he, rfl⟩
    · rcases mem_cons.mp (hperm.subset hp) with rfl | hp
      · exact ⟨_, mem_append_right _ (mem_singleton_self _), rfl⟩
      · obtain ⟨e, he, rfl⟩ := h.infos p hp
        exact ⟨e, mem_append_left _ he, rfl⟩
  · intro hnd
    change ((st.log ++ [_]).map Entry.key).Nodup at hnd
    rw [map_append, nodup_append] at hnd
    obtain ⟨hlog, -, hnew⟩ := hnd
    rcases hcas with ⟨-, hmem⟩ | hperm
    · -- the key would be that of an entry before
      obtain ⟨p, hp, rfl⟩ := mem_map.mp hmem
      obtain ⟨e', he', rfl⟩ := h.infos p hp
      exact absurd rfl (hnew _ (mem_map_of_mem he') _ (by simp))
    · refine forall_log_finish.mpr ⟨fun e he => ?_, hperm.symm.subset mem_cons_self⟩
      exact hperm.symm.subset (mem_cons_of_mem _ (h.log hlog e he))

theorem Indexed.adds (h : Indexed st) (hadds : Adds env A st st') : Indexed st' := by
  induction hadds with
  | refl => exact h
  | tail _ hstep ih =>
    obtain ⟨-, -⟩ := hstep
    exact ih.finish ..

theorem Indexed.close_eq (h : Indexed st) :
    st.close = if st.files.length < 65536 then .ok st.archive else .error .assertionViolation := by
  have hlen := congrArg List.length h.keys
  rw [length_map, length_map] at hlen
  rw [close, hlen]
  simp

theorem seekableOut_adds (hadds : Adds env A st st') : st'.seekableOut = st.seekableOut := by
  induction hadds with
  | refl => rfl
  | tail _ hstep ih =>
    obtain ⟨-, -⟩ := hstep
    exact ih

end Invariants

/-! ### Offsets and sizes -/

section Settled

variable {env : Env} {A : Source → Prop}

/-- The header of an entry says what its data is. -/
structure Faithful (env : Env) (hdr : ZipLocalFileHeader)
    (payload content : Bytes) : Prop where
  crc32 : hdr.crc32 = env.crc32 content
  compressedSize : hdr.compressedSize = payload.length
  uncompressedSize : hdr.uncompressedSize = content.length

def Reliable (env : Env) (seekable : Bool) (source : Source) (hdr : ZipLocalFileHeader)
    (payload content : Bytes) : Prop :=
  match source with
  | .file _ => (seekable = true ∧ content.length < 2 ^ 32) ∨ (payload = [] ∧ content = [])
  | .directory => True
  | .raw => Faithful env hdr payload content

variable {start : ℕ}

theorem faithful_setStartPos :
    Faithful env (hdr.setStartPos start) payload content ↔ Faithful env hdr payload content :=
  ⟨fun h => ⟨h.crc32, h.compressedSize, h.uncompressedSize⟩,
    fun h => ⟨h.crc32, h.compressedSize, h.uncompressedSize⟩⟩

theorem reliable_setStartPos :
    Reliable env seekable source (hdr.setStartPos start) payload content ↔
      Reliable env seekable source hdr payload content := by
  cases source with
  | file | directory => exact Iff.rfl
  | raw => exact faithful_setStartPos

theorem length_le_overwrite (pos : ℕ) (bytes out : Bytes) :
    out.length ≤ (overwrite pos bytes out).length := by
  rw [overwrite, length_append, length_append, length_take, length_drop]
  omega

theorem overwrite_append {old new : Bytes} (h : new.length = old.length) :
    overwrite out.length new (out ++ old ++ payload) = out ++ new ++ payload := by
  rw [overwrite, append_assoc out old, take_left, h, ← append_assoc, ← length_append, drop_left]

section

variable (h : Writes env st source out hdr payload content)
include h

theorem Writes.length_le : st.out.length ≤ out.length := by
  cases h with
  | stream _ _ _ hwr =>
    rcases writeStream_ok hwr with ⟨-, -, -, rfl⟩ | ⟨-, -, -, rfl⟩ | ⟨-, -, -, -, rfl⟩
    · simp
    · simp only [length_append]
      omega
    · refine le_trans ?_ (length_le_overwrite _ _ _)
      simp only [length_append]
      omega
  | raw _ =>
    simp only [length_append]
    omega

/-- At the right offset an entry comes after what is there: its header, its data, and the
sizes if the header has them not. -/
theorem Writes.out_eq
    (hoff : st.offset = st.out.length) :
    ∃ info : Bytes, out = st.out ++ hdr.createHeader ++ payload ++ info ∧
      info.length =
        if hdr.searchCRCAndSizesAfterData then ZipDataInfo.getFullHeaderSize else 0 := by
  cases h with
  | @stream _ _ _ _ hdr₀ hdr' _ _ _ hwr =>
    have hsrc := searchCRCAndSizesAfterData_false (hdr₀.setStartPos st.offset)
    rcases writeStream_ok hwr with ⟨-, rfl, rfl, rfl⟩ | ⟨-, hmet, rfl, rfl⟩ |
      ⟨-, -, -, hhdr, rfl⟩
    · refine ⟨[], by simp, ?_⟩
      exact (if_neg (Bool.eq_false_iff.mp hsrc)).symm
    · refine ⟨_, rfl, ?_⟩
      rw [searchCRCAndSizesAfterData_true hmet, if_pos rfl, ZipDataInfo.length_getRawHeader]
    refine ⟨[], ?_, ?_⟩
    · -- the second header is as long as the first
      have hlen : hdr.createHeader.length = ((hdr₀.setStartPos st.offset
          ).setSearchCRCAndSizesAfterData false).createHeader.length := by
        rw [hhdr, length_createHeader, length_createHeader]
        rfl
      rw [append_nil, ← overwrite_append hlen, ← hoff]
      rfl
    · rw [hhdr]
      exact (if_neg (Bool.eq_false_iff.mp hsrc)).symm
  | raw hinfo => exact ⟨_, rfl, hinfo⟩

theorem Writes.faithful_iff
    (hdfl : ∀ cm, source = .file cm → cm = .deflate) (hpay : payload.length < 2 ^ 32) :
    Faithful env hdr payload content ↔
      Reliable env st.seekableOut source hdr payload content := by
  cases h with
  | raw _ => exact Iff.rfl
  | @stream _ _ _ _ hdr₀ _ hfr hraw hcon hwr =>
    have hmod : ∀ {n : ℕ}, n < 2 ^ 32 → n % 2 ^ 32 = n := Nat.mod_eq_of_lt
    have hcrc := env.crc32_lt content
    cases source with
    | raw => exact absurd rfl hraw
    | directory =>
      refine iff_of_true ?_ trivial
      obtain rfl := hcon rfl
      have hmet : (hdr₀.setStartPos st.offset).compressionMethod = CM_STORE :=
        hfr.directory rfl
      rcases writeStream_ok hwr with ⟨-, rfl, rfl, -⟩ | ⟨-, hdef, -⟩ | ⟨-, -, hsto, rfl, -⟩
      · exact ⟨env.crc32_nil.symm, rfl, rfl⟩
      · exact absurd (hmet.symm.trans hdef) (by decide)
      · obtain rfl := hsto hmet
        exact ⟨hmod hcrc, rfl, rfl⟩
    | file cm =>
      obtain rfl := hdfl cm rfl
      have hmet : (hdr₀.setStartPos st.offset).compressionMethod = CM_DEFLATE :=
        hfr.file _ rfl
      rcases writeStream_ok hwr with ⟨hdir, -⟩ | ⟨hseek, -, rfl, -⟩ | ⟨hseek, -, -, rfl, -⟩
      · -- a deflated entry is no directory
        rw [isDirectory, hmet] at hdir
        simp [CM_DEFLATE, CM_STORE, CompressionMethod.code] at hdir
      · -- the header keeps the zeros that it has at first
        constructor
        · intro hf
          have hsize := hf.compressedSize.symm.trans hfr.compressedSize
          have husi := hf.uncompressedSize.symm.trans hfr.uncompressedSize
          exact .inr ⟨length_eq_zero_iff.mp hsize, length_eq_zero_iff.mp husi⟩
        · rintro (⟨hseek', -⟩ | ⟨rfl, rfl⟩)
          · rw [hseek] at hseek'
            cases hseek'
          · exact ⟨hfr.crc32.trans env.crc32_nil.symm, hfr.compressedSize,
              hfr.uncompressedSize⟩
      · constructor
        · intro hf
          refine .inl ⟨hseek, ?_⟩
          rw [← hf.uncompressedSize]
          exact Nat.mod_lt _ (by decide)
        intro hr
        have hlen : content.length < 2 ^ 32 := by
          rcases hr with ⟨-, h⟩ | ⟨-, rfl⟩
          · exact h
          · decide
        exact ⟨hmod hcrc, hmod hpay, hmod hlen⟩

end

structure Settled (env : Env) (st : Compress) : Prop where
  offset : st.offset = st.out.length
  startPos : ∀ e ∈ st.log, e.header.startPos = e.start
  faithful : ∀ e ∈ st.log, Faithful env e.header e.payload e.content

theorem offset_finish_iff (h : Writes env st source out hdr payload content)
    (hsize : out.length < 2 ^ 32) (hoff : st.offset = st.out.length)
    (hcom : hdr.compressedSize = payload.length) :
    (st.finish source key out hdr payload content).offset = out.length ↔
      hdr.fileName.length < 2 ^ 16 := by
  obtain ⟨info, rfl, hinfo⟩ := h.out_eq hoff
  have hext := Nat.mod_eq_of_lt hdr.extraField_lt
  rw [length_append, length_append, length_append, length_createHeader, ← hoff] at hsize ⊢
  rw [finish]
  rw [searchCRCAndSizesAfterData_setStartPos, setStartPos]
  dsimp only
  rw [getHeaderSize, hext, hcom]
  split at hinfo
  · next hsrc =>
    rw [if_pos hsrc]
    omega
  · next hsrc =>
    rw [if_neg hsrc]
    omega

theorem settled_finish_iff (h : Writes env st source out hdr payload content)
    (hdef : ∀ cm, source = .file cm → cm = .deflate) (hsize : out.length < 2 ^ 32) :
    Settled env (st.finish source key out hdr payload content) ↔
      Settled env st ∧ hdr.fileName.length < 2 ^ 16 ∧
        Reliable env st.seekableOut source hdr payload content := by
  have hpay : st.offset = st.out.length → payload.length < 2 ^ 32 := by
    intro hoff
    obtain ⟨info, rfl, -⟩ := h.out_eq hoff
    simp only [length_append] at hsize
    omega
  constructor
  · intro hs
    -- the entry begins where the offset was
    obtain ⟨hbeg, hoff⟩ := forall_log_finish.mp hs.startPos
    obtain ⟨hlog, hnew⟩ := forall_log_finish.mp hs.faithful
    have hfai := faithful_setStartPos.mp hnew
    refine ⟨⟨hoff, hbeg, hlog⟩, ?_, (h.faithful_iff hdef (hpay hoff)).mp hfai⟩
    exact (offset_finish_iff h hsize hoff hfai.compressedSize).mp hs.offset
  · rintro ⟨hs, hname, hrel⟩
    have hfai := (h.faithful_iff hdef (hpay hs.offset)).mpr hrel
    exact ⟨(offset_finish_iff h hsize hs.offset hfai.compressedSize).mpr hname,
      forall_log_finish.mpr ⟨hs.startPos, hs.offset⟩,
      forall_log_finish.mpr ⟨hs.faithful, faithful_setStartPos.mpr hfai⟩⟩

theorem settled_iff (hA : ∀ cm, A (.file cm) → cm = .deflate) {comment : Bytes}
    (hadds : Adds env A (new seekable comment) st) (hsize : st.out.length < 2 ^ 32) :
    Settled env st ↔ ∀ e ∈ st.log, e.header.fileName.length < 2 ^ 16 ∧
      Reliable env seekable e.source e.header e.payload e.content := by
  induction hadds with
  | refl => exact iff_of_true ⟨rfl, nofun, nofun⟩ nofun
  | @tail st st' hadds hstep ih =>
    have hseek := seekableOut_adds hadds
    obtain ⟨hsrc, hwri⟩ := hstep
    rw [settled_finish_iff hwri (fun cm h => hA cm (h ▸ hsrc)) hsize,
      ih (hwri.length_le.trans_lt hsize), hseek, forall_log_finish, reliable_setStartPos]
    rfl

end Settled

/-! ### The central directory -/

section Consistent

variable {env : Env}

/-- A record of the central directory holds the offset of an entry, its checksum and its
sizes. -/
structure Describes (env : Env) (info : ZipFileInfo) (e : Entry) : Prop where
  offset : info.offset = e.start
  crc32 : info.crc32 = env.crc32 e.content
  compressedSize : info.compressedSize = e.payload.length
  uncompressedSize : info.uncompressedSize = e.content.length

/-- The offset is the number of bytes written, now and when each entry began; each record of
the central directory describes its entry, and each entry has one. -/
structure Consistent (env : Env) (st : Compress) : Prop where
  offset : st.offset = st.out.length
  startPos : ∀ e ∈ st.log, e.header.startPos = e.start
  records : ∀ p ∈ st.infos, ∃ e ∈ st.log, e.key = p.1 ∧ Describes env p.2 e
  recorded : ∀ e ∈ st.log, e.key ∈ st.infos.map Prod.fst

/-- With distinct names the records say what the headers say. -/
theorem Indexed.consistent_iff (h : Indexed st) (hnd : (st.log.map Entry.key).Nodup) :
    Consistent env st ↔ Settled env st := by
  constructor
  · intro hc
    refine ⟨hc.offset, hc.startPos, ?_⟩
    intro e he
    obtain ⟨e', he', hkey, hdes⟩ := hc.records _ (h.log hnd e he)
    obtain rfl : e' = e := inj_on_of_nodup_map hnd he' he hkey
    exact ⟨hdes.crc32, hdes.compressedSize, hdes.uncompressedSize⟩
  · intro hs
    refine ⟨hs.offset, hs.startPos, ?_, ?_⟩
    · intro p hp
      obtain ⟨e, he, rfl⟩ := h.infos p hp
      have hfai := hs.faithful e he
      refine ⟨e, he, rfl, ?_, hfai.crc32, hfai.compressedSize, hfai.uncompressedSize⟩
      exact (Nat.mod_eq_of_lt (h.startPos_lt e he)).trans (hs.startPos e he)
    · exact fun e he => mem_map.mpr ⟨_, h.log hnd e he, rfl⟩

/-- **The archives that are consistent.**  Calls that add deflated files, directories and raw
entries, with distinct names and less than 4 GiB in all, and then `close`: the offset and the
central directory are right if and only if there are not too many entries, the stored names
are short, deflated files have gone to a seekable output or are empty, and the headers of raw
entries are right. -/
theorem close_consistent_iff {seekable : Bool} {comment : Bytes} {calls : List Call}
    {st : Compress} (hrun : Run env (new seekable comment) calls st)
    (hdeflate : ∀ c ∈ calls, ∀ cm, c.source = .file cm → cm = .deflate)
    (hnames : (st.log.map Entry.key).Nodup) (hsize : st.archive.length < 2 ^ 32) :
    (∃ archive, st.close = .ok archive ∧ Consistent env st) ↔
      st.files.length < 65536 ∧ ∀ e ∈ st.log, e.header.fileName.length < 2 ^ 16 ∧
        Reliable env seekable e.source e.header e.payload e.content := by
  have hadds : Adds env (fun s => ∀ cm, s = .file cm → cm = .deflate) (new seekable comment) st :=
    hrun.adds nofun hdeflate
  have hind := (indexed_new seekable comment).adds hadds
  have hout : st.out.length < 2 ^ 32 := by
    rw [archive, length_append, length_append] at hsize
    omega
  rw [← settled_iff (fun cm h => h cm rfl) hadds hout, ← hind.consistent_iff hnames,
    hind.close_eq]
  by_cases hfil : st.files.length < 65536
  · rw [if_pos hfil]
    simp [hfil]
  · rw [if_neg hfil]
    simp [hfil]

def firstDay : DateTime :=
  ⟨2000, 1, 1, 0, 0, 0, by decide, by decide, by decide, by decide, by decide⟩

def fileAndDirectory : List Call :=
  [.addFile (some [0x61]) firstDay { name := [0x61] } .deflate .normal,
    .addDirectory { dirs := [[0x64]] } firstDay]

/-- The state of a new writer after calls that return, in the environment to compute with. -/
def after (seekable : Bool) (calls : List Call) : Compress :=
  calls.foldl (fun st c => (st.call Env.stored c).toOption.getD st) (new seekable [])

theorem run_fileAndDirectory (seekable : Bool) :
    Run Env.stored (new seekable []) fileAndDirectory (after seekable fileAndDirectory) := by
  cases seekable with
  | false | true => exact .cons rfl (.cons rfl (.nil _))

theorem deflate_fileAndDirectory :
    ∀ c ∈ fileAndDirectory, ∀ cm, c.source = .file cm → cm = .deflate := by
  intro c hc cm hsrc
  rcases mem_cons.mp hc with rfl | hc
  · exact (Source.file.inj hsrc).symm
  · rw [mem_singleton.mp hc] at hsrc
    cases hsrc

/-- On a seekable output the two entries are described. -/
theorem close_consistent_iff_seekable :
    ∃ archive, (after true fileAndDirectory).close = .ok archive ∧
      Consistent Env.stored (after true fileAndDirectory) := by
  refine (close_consistent_iff (run_fileAndDirectory true) deflate_fileAndDirectory
    (by decide +kernel) (by decide +kernel)).mpr ⟨by decide +kernel, ?_⟩
  intro e he
  have hlog : (after true fileAndDirectory).log.Forall fun e =>
      e.header.fileName.length < 2 ^ 16 ∧ (e.source = .directory ∨
        e.source = .file .deflate ∧ e.content.length < 2 ^ 32) := by decide
  obtain ⟨hname, hsrc | ⟨hsrc, hcon⟩⟩ := forall_iff_forall_mem.mp hlog e he
  · exact ⟨hname, by rw [hsrc]; trivial⟩
  · exact ⟨hname, by rw [hsrc]; exact .inl ⟨rfl, hcon⟩⟩

/-- On another output they are not: the six bytes of the compressed file are missing in the
offset, and so the record of the directory points before its header. -/
theorem close_inconsistent :
    Run Env.stored (new false []) fileAndDirectory (after false fileAndDirectory) ∧
      ((after false fileAndDirectory).log.map Entry.key).Nodup ∧
      (after false fileAndDirectory).archive.length < 2 ^ 32 ∧
      (after false fileAndDirectory).close = .ok (after false fileAndDirectory).archive ∧
      (after false fileAndDirectory).offset + 6 = (after false fileAndDirectory).out.length ∧
      (after false fileAndDirectory).log.map (fun e => (e.key, e.start))
        = [([0x61], 0), ([0x64, 0x2F], 53)] ∧
      (after false fileAndDirectory).infos.map (fun p => (p.1, p.2.offset, p.2.compressedSize))
        = [([0x61], 0, 0), ([0x64, 0x2F], 47, 0)] ∧
      ¬ Consistent Env.stored (after false fileAndDirectory) := by
  have hoff : (after false fileAndDirectory).offset + 6
      = (after false fileAndDirectory).out.length := by decide
  refine ⟨run_fileAndDirectory false, by decide +kernel, by decide +kernel, ?_, hoff,
    by decide, by decide, ?_⟩
  · exact if_pos (by decide)
  · intro h
    have := h.offset
    omega

end Consistent

end Compress

end Poco.Zip
