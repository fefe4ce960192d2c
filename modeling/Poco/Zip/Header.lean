import Mathlib.Tactic.IntervalCases
import Poco.Path

/-!
# The records of a ZIP file

`ZipLocalFileHeader`, `ZipFileInfo`, `ZipDataInfo` and `ZipArchiveInfo` of the Zip library,
and the dates of `ZipUtil`.  The setters of a header write a value both to a member and to
the raw bytes; here a header has its values once and `createHeader` is the raw bytes.

## Main definitions

* `DateTime`, `parseDateTime`: a date, to the second, and `ZipUtil::parseDateTime`, where `none` is
  a violated assertion of the constructor of `DateTime`.
* `ZipLocalFileHeader`: the lengths of the name and of the extra field in the raw header are those
  of the two texts, in 16 bits.

## Main results

* `parseDateTime_isSome_iff`: the dates that can be read back.
-/

namespace Poco

open List

/-! ### Dates -/

def isLeapYear (year : ℤ) : Bool := year % 4 == 0 && (year % 100 != 0 || year % 400 == 0)

def daysOfMonth (year : ℤ) (month : ℕ) : ℕ :=
  if month = 2 ∧ isLeapYear year then 29
  else [0, 31, 28, 31, 30, 31, 30, 31, 31, 30, 31, 30, 31].getD month 0

structure DateTime where
  year : ℤ
  month : ℕ
  day : ℕ
  hour : ℕ
  minute : ℕ
  second : ℕ
  month_valid : 1 ≤ month ∧ month ≤ 12
  day_valid : 1 ≤ day ∧ day ≤ daysOfMonth year month
  hour_valid : hour ≤ 23
  minute_valid : minute ≤ 59
  second_valid : second ≤ 59
  deriving DecidableEq, Repr

theorem DateTime.day_le (dt : DateTime) : dt.day ≤ 31 := by
  have hday := dt.day_valid.2
  obtain ⟨hmon, hmon'⟩ := dt.month_valid
  generalize dt.month = month at *
  rw [daysOfMonth] at hday
  split at hday
  · omega
  · refine hday.trans ?_
    interval_cases month <;> decide

namespace Zip

namespace ZipUtil

def dosTime (dt : DateTime) : ℕ := dt.second / 2 + dt.minute * 2 ^ 5 + dt.hour * 2 ^ 11

def dosDate (dt : DateTime) : ℕ :=
  (dt.day + dt.month * 2 ^ 5 + (dt.year - 1980).toNat * 2 ^ 9) % 2 ^ 16

def parseDateTime (time date : ℕ) : Option DateTime :=
  let sec := 2 * (time % 2 ^ 5)
  let min := time / 2 ^ 5 % 2 ^ 6
  let hour := time / 2 ^ 11
  let day := date % 2 ^ 5
  let mon := date / 2 ^ 5 % 2 ^ 4
  let year : ℤ := 1980 + (date / 2 ^ 9 : ℕ)
  if h : (1 ≤ mon ∧ mon ≤ 12) ∧ (1 ≤ day ∧ day ≤ daysOfMonth year mon) ∧ hour ≤ 23 ∧ min ≤ 59 ∧
      sec ≤ 59 then
    some ⟨year, mon, day, hour, min, sec, h.1, h.2.1, h.2.2.1, h.2.2.2.1, h.2.2.2.2⟩
  else none

/-- A date that is not moved to the 29th of February 2100, which does not exist, by taking
the number of the year modulo 128. -/
def Storable (dt : DateTime) : Prop :=
  ¬ (dt.month = 2 ∧ dt.day = 29 ∧ (dt.year - 1980).toNat % 128 = 120)

instance (dt : DateTime) : Decidable (Storable dt) := inferInstanceAs (Decidable (¬ _))

theorem isLeapYear_stored : ∀ r < 128, isLeapYear (1980 + (r : ℕ)) = (r % 4 == 0 && r != 120) := by
  decide

theorem dosDate_fields (dt : DateTime) :
    dosDate dt % 2 ^ 5 = dt.day ∧ dosDate dt / 2 ^ 5 % 2 ^ 4 = dt.month ∧
      dosDate dt / 2 ^ 9 = (dt.year - 1980).toNat % 128 := by
  have hday := dt.day_le
  have hmon := dt.month_valid
  rw [dosDate]
  omega

theorem dosTime_fields (dt : DateTime) :
    2 * (dosTime dt % 2 ^ 5) ≤ 59 ∧ dosTime dt / 2 ^ 5 % 2 ^ 6 = dt.minute ∧
      dosTime dt / 2 ^ 11 = dt.hour := by
  have hmin := dt.minute_valid
  have h2nd := dt.second_valid
  rw [dosTime]
  omega

theorem dosTime_mod (dt : DateTime) : dosTime dt % 256 ^ 2 = dosTime dt := by
  have hhour := dt.hour_valid
  have hmin := dt.minute_valid
  have h2nd := dt.second_valid
  rw [dosTime]
  omega

theorem dosDate_mod (dt : DateTime) : dosDate dt % 256 ^ 2 = dosDate dt := Nat.mod_mod _ _

theorem day_le_stored_iff (dt : DateTime) :
    dt.day ≤ daysOfMonth (1980 + ((dt.year - 1980).toNat % 128 : ℕ)) dt.month ↔ Storable dt := by
  have hday := dt.day_valid.2
  rw [daysOfMonth] at hday ⊢
  rw [Storable]
  by_cases hfeb : dt.month = 2
  · have hleap := isLeapYear_stored ((dt.year - 1980).toNat % 128) (Nat.mod_lt _ (by decide))
    rw [hleap]
    rw [hfeb] at hday ⊢
    by_cases h : isLeapYear dt.year = true
    · rw [if_pos ⟨rfl, h⟩] at hday
      have hfour : (dt.year - 1980).toNat % 128 % 4 = 0 := by
        rw [isLeapYear, Bool.and_eq_true, beq_iff_eq] at h
        omega
      simp only [hfour]
      by_cases h120 : (dt.year - 1980).toNat % 128 = 120
      · simp [h120]
        omega
      · simp [h120]
        omega
    · rw [if_neg (by simp [h])] at hday
      replace hday : dt.day ≤ 28 := hday
      have hle : ∀ b : Bool, dt.day ≤ if 2 = 2 ∧ b = true then 29
          else [0, 31, 28, 31, 30, 31, 30, 31, 31, 30, 31, 30, 31].getD 2 0 := by
        intro b
        cases b
        · exact hday
        · exact hday.trans (by decide)
      refine iff_of_true (hle _) ?_
      omega
  · rw [if_neg (by simp [hfeb])] at hday ⊢
    exact iff_of_true hday fun h => hfeb h.1

theorem parseDateTime_isSome_iff (dt : DateTime) :
    (parseDateTime (dosTime dt) (dosDate dt)).isSome = true ↔ Storable dt := by
  obtain ⟨hday, hmon, hyear⟩ := dosDate_fields dt
  obtain ⟨h2nd, hmin, hhour⟩ := dosTime_fields dt
  rw [← day_le_stored_iff, parseDateTime]
  simp only [hday, hmon, hyear, hmin, hhour]
  split
  · next h => exact iff_of_true rfl h.2.1.2
  · next h =>
    simp only [Option.isSome_none, Bool.false_eq_true, false_iff]
    intro hle
    exact h ⟨dt.month_valid, ⟨dt.day_valid.1, hle⟩, dt.hour_valid, dt.minute_valid, h2nd⟩

end ZipUtil

/-! ### Codes -/

inductive CompressionMethod where
  | store
  | shrunk
  | factor1
  | factor2
  | factor3
  | factor4
  | implode
  | tokenize
  | deflate
  | enhancedDeflate
  | dateComprImploding
  | unused
  deriving DecidableEq, Repr

def CompressionMethod.code : CompressionMethod → ℕ
  | .store => 0
  | .shrunk => 1
  | .factor1 => 2
  | .factor2 => 3
  | .factor3 => 4
  | .factor4 => 5
  | .implode => 6
  | .tokenize => 7
  | .deflate => 8
  | .enhancedDeflate => 9
  | .dateComprImploding => 10
  | .unused => 11

inductive CompressionLevel where
  | normal
  | maximum
  | fast
  | superfast
  deriving DecidableEq, Repr

def CompressionLevel.code : CompressionLevel → UInt8
  | .normal => 0
  | .maximum => 1
  | .fast => 2
  | .superfast => 3

def CM_STORE : ℕ := CompressionMethod.store.code

def CM_DEFLATE : ℕ := CompressionMethod.deflate.code

def HS_UNIX : UInt8 := 3

def HS_UNUSED : UInt8 := 18

/-! ### The header of an entry -/

structure ZipLocalFileHeader where
  version : UInt8
  hostSystem : UInt8
  /-- The general purpose bits, first byte. -/
  gpLow : UInt8
  /-- The general purpose bits, second byte. -/
  gpHigh : UInt8
  compressionMethod : ℕ
  lastModifiedAt : DateTime
  crc32 : ℕ
  compressedSize : ℕ
  uncompressedSize : ℕ
  fileName : Bytes
  extraField : Bytes
  startPos : ℕ
  endPos : ℕ
  /-- The extra field comes from a header whose length field has 16 bits. -/
  extraField_lt : extraField.length < 2 ^ 16
  deriving DecidableEq, Repr

namespace ZipLocalFileHeader

def HEADER : Bytes := [0x50, 0x4B, 0x03, 0x04]

def FULLHEADER_SIZE : ℕ := 30

def getHeaderSize (h : ZipLocalFileHeader) : ℕ :=
  FULLHEADER_SIZE + h.extraField.length % 2 ^ 16 + h.fileName.length % 2 ^ 16

def setStartPos (h : ZipLocalFileHeader) (start : ℕ) : ZipLocalFileHeader :=
  { h with startPos := start, endPos := start + h.getHeaderSize + h.compressedSize }

def getDataStartPos (h : ZipLocalFileHeader) : ℕ := h.startPos + h.getHeaderSize

def isEncrypted (h : ZipLocalFileHeader) : Bool := (h.gpLow &&& 0x01) != 0

/-- `ZipLocalFileHeader::getCompressionLevel`, as a number. -/
def getCompressionLevel (h : ZipLocalFileHeader) : UInt8 := (h.gpLow >>> 1) &&& 0x03

/-- `ZipLocalFileHeader::isDirectory`.  The source looks at the last character of the name
also if the name is empty. -/
def isDirectory (h : ZipLocalFileHeader) : Bool :=
  h.uncompressedSize == 0 && h.compressionMethod == CM_STORE && h.fileName.getLast? == some 0x2F

def searchCRCAndSizesAfterData (h : ZipLocalFileHeader) : Bool :=
  h.compressionMethod == CM_DEFLATE && (h.gpLow &&& 0x08) != 0

def setSearchCRCAndSizesAfterData (h : ZipLocalFileHeader) (val : Bool) : ZipLocalFileHeader :=
  { h with gpLow := if val then h.gpLow ||| 0x08 else h.gpLow &&& 0xF7 }

/-- `setCRC`, `setCompressedSize` and `setUncompressedSize`, with numbers of 32 bits. -/
def setCRCAndSizes (h : ZipLocalFileHeader) (crc32 compressedSize uncompressedSize : ℕ) :
    ZipLocalFileHeader :=
  { h with
    crc32 := crc32 % 2 ^ 32
    compressedSize := compressedSize % 2 ^ 32
    uncompressedSize := uncompressedSize % 2 ^ 32 }

def setCompressionLevel (h : ZipLocalFileHeader) (level : UInt8) : ZipLocalFileHeader :=
  { h with gpLow := (h.gpLow &&& (0xF9 : UInt8)) ||| (level <<< (1 : UInt8)) }

/-- `ZipLocalFileHeader::setFileName`.  `none` is a violated assertion. -/
def setFileName (home : List Bytes) (h : ZipLocalFileHeader) (fileName : Bytes)
    (isDirectory : Bool) : Option ZipLocalFileHeader :=
  if fileName = [] then none
  else
    let aPath := Path.parseUnix home fileName
    let h :=
      if isDirectory then
        ({ h.setCRCAndSizes 0 0 0 with compressionMethod := CM_STORE }).setCompressionLevel
          CompressionLevel.normal.code
      else h
    let name := (if isDirectory then aPath.makeDirectory else aPath.makeFile).buildUnix
    some { h with fileName := if name.head? = some 0x2F then name.tail else name }

/-- A name changes nothing but the name, the sizes of a directory and the way it is stored. -/
theorem setFileName_eq_some {h h' : ZipLocalFileHeader} {fileName : Bytes} {isDirectory : Bool}
    (hset : h.setFileName home fileName isDirectory = some h') :
    h'.version = h.version ∧ h'.hostSystem = h.hostSystem ∧ h'.extraField = h.extraField ∧
      (isDirectory = false → h'.crc32 = h.crc32 ∧ h'.compressedSize = h.compressedSize ∧
        h'.uncompressedSize = h.uncompressedSize) ∧
      (isDirectory = true → h'.crc32 = 0 ∧ h'.compressedSize = 0 ∧ h'.uncompressedSize = 0) := by
  rw [setFileName] at hset
  split at hset
  · cases hset
  · cases hset
    cases isDirectory
    · exact ⟨rfl, rfl, rfl, fun _ => ⟨rfl, rfl, rfl⟩, nofun⟩
    · exact ⟨rfl, rfl, rfl, nofun, fun _ => ⟨rfl, rfl, rfl⟩⟩

theorem length_nil_lt : ([] : Bytes).length < 2 ^ 16 := by decide

/-- The constructor of `ZipLocalFileHeader` from a path, with `init`. -/
def create (home : List Bytes) (fileName : Path) (lastModifiedAt : DateTime)
    (cm : CompressionMethod) (cl : CompressionLevel) : Option ZipLocalFileHeader :=
  let h : ZipLocalFileHeader :=
    { version := 0, hostSystem := HS_UNIX, gpLow := 0, gpHigh := 0, compressionMethod := 0,
      lastModifiedAt := lastModifiedAt, crc32 := 0, compressedSize := 0, uncompressedSize := 0,
      fileName := [], extraField := [], startPos := 0, endPos := 0, extraField_lt := length_nil_lt }
  let fileName := fileName.setDevice []
  (h.setFileName home fileName.buildUnix fileName.isDirectory).map fun h =>
    let h := { h with version := 20 }
    if fileName.isFile then
      ({ h with compressionMethod := cm.code }).setCompressionLevel cl.code
    else { h with compressionMethod := CM_STORE }

def createHeader (h : ZipLocalFileHeader) : Bytes :=
  HEADER ++ [h.version, h.hostSystem, h.gpLow, h.gpHigh] ++ Bytes.bytesLE 2 h.compressionMethod
    ++ Bytes.bytesLE 2 (ZipUtil.dosTime h.lastModifiedAt)
    ++ Bytes.bytesLE 2 (ZipUtil.dosDate h.lastModifiedAt)
    ++ Bytes.bytesLE 4 h.crc32 ++ Bytes.bytesLE 4 h.compressedSize
    ++ Bytes.bytesLE 4 h.uncompressedSize ++ Bytes.bytesLE 2 h.fileName.length
    ++ Bytes.bytesLE 2 h.extraField.length ++ h.fileName ++ h.extraField

@[simp] theorem createHeader_setStartPos (h : ZipLocalFileHeader) (start : ℕ) :
    (h.setStartPos start).createHeader = h.createHeader := rfl

@[simp] theorem searchCRCAndSizesAfterData_setStartPos (h : ZipLocalFileHeader) (start : ℕ) :
    (h.setStartPos start).searchCRCAndSizesAfterData = h.searchCRCAndSizesAfterData := rfl

theorem searchCRCAndSizesAfterData_false (h : ZipLocalFileHeader) :
    (h.setSearchCRCAndSizesAfterData false).searchCRCAndSizesAfterData = false := by
  have hbit : ∀ b : UInt8, ((b &&& 0xF7) &&& 0x08 != 0) = false := by decide
  show (_ && ((h.gpLow &&& 0xF7) &&& 0x08 != 0)) = false
  rw [hbit, Bool.and_false]

theorem searchCRCAndSizesAfterData_true {h : ZipLocalFileHeader}
    (hmet : h.compressionMethod = CM_DEFLATE) :
    (h.setSearchCRCAndSizesAfterData true).searchCRCAndSizesAfterData = true := by
  have hbit : ∀ b : UInt8, ((b ||| 0x08) &&& 0x08 != 0) = true := by decide
  show (h.compressionMethod == CM_DEFLATE && ((h.gpLow ||| 0x08) &&& 0x08 != 0)) = true
  rw [hbit, hmet]
  rfl

theorem length_createHeader (h : ZipLocalFileHeader) :
    h.createHeader.length = FULLHEADER_SIZE + h.fileName.length + h.extraField.length := by
  simp only [createHeader, HEADER, FULLHEADER_SIZE, length_append, length_cons,
    length_nil, Bytes.length_bytesLE]

end ZipLocalFileHeader

/-! ### The data descriptor -/

namespace ZipDataInfo

def HEADER : Bytes := [0x50, 0x4B, 0x07, 0x08]

def getFullHeaderSize : ℕ := 16

def getRawHeader (crc32 compressedSize uncompressedSize : ℕ) : Bytes :=
  HEADER ++ Bytes.bytesLE 4 crc32 ++ Bytes.bytesLE 4 compressedSize
    ++ Bytes.bytesLE 4 uncompressedSize

theorem length_getRawHeader (crc32 compressedSize uncompressedSize : ℕ) :
    (getRawHeader crc32 compressedSize uncompressedSize).length = getFullHeaderSize := by
  simp [getRawHeader, HEADER, getFullHeaderSize]

end ZipDataInfo

/-! ### The central directory -/

structure ZipFileInfo where
  version : UInt8
  hostSystem : UInt8
  /-- The general purpose bits, first byte. -/
  gpLow : UInt8
  compressionMethod : ℕ
  lastModifiedAt : DateTime
  crc32 : ℕ
  compressedSize : ℕ
  uncompressedSize : ℕ
  fileName : Bytes
  externalFileAttributes : ℕ
  /-- The relative offset of the local header. -/
  offset : ℕ
  deriving DecidableEq, Repr

namespace ZipFileInfo

def HEADER : Bytes := [0x50, 0x4B, 0x01, 0x02]

def DEFAULT_UNIX_FILE_MODE : ℕ := 0o640

def DEFAULT_UNIX_DIR_MODE : ℕ := 0o755

def unixAttributes (isDir : Bool) : ℕ :=
  if isDir then DEFAULT_UNIX_DIR_MODE * 2 ^ 16 + 0x10 else DEFAULT_UNIX_FILE_MODE * 2 ^ 16

/-- The constructor of `ZipFileInfo` from the header of an entry, and `setOffset`. -/
def ofHeader (header : ZipLocalFileHeader) (offset : ℕ) : ZipFileInfo where
  version := header.version
  hostSystem := header.hostSystem
  gpLow := (header.getCompressionLevel <<< 1) &&& 0xFE
  compressionMethod := header.compressionMethod
  lastModifiedAt := header.lastModifiedAt
  crc32 := header.crc32
  compressedSize := header.compressedSize
  uncompressedSize := header.uncompressedSize
  fileName := header.fileName
  externalFileAttributes :=
    if header.hostSystem = HS_UNIX then unixAttributes header.isDirectory else 0
  offset := offset % 2 ^ 32

/-- `ZipFileInfo::createHeader`, without an extra field and a comment. -/
def createHeader (i : ZipFileInfo) : Bytes :=
  HEADER ++ [i.version, i.hostSystem, i.version, i.hostSystem, i.gpLow, 0]
    ++ Bytes.bytesLE 2 i.compressionMethod ++ Bytes.bytesLE 2 (ZipUtil.dosTime i.lastModifiedAt)
    ++ Bytes.bytesLE 2 (ZipUtil.dosDate i.lastModifiedAt) ++ Bytes.bytesLE 4 i.crc32
    ++ Bytes.bytesLE 4 i.compressedSize ++ Bytes.bytesLE 4 i.uncompressedSize
    ++ Bytes.bytesLE 2 i.fileName.length ++ Bytes.bytesLE 2 0 ++ Bytes.bytesLE 2 0
    ++ Bytes.bytesLE 2 0 ++ Bytes.bytesLE 2 0 ++ Bytes.bytesLE 4 i.externalFileAttributes
    ++ Bytes.bytesLE 4 i.offset ++ i.fileName

end ZipFileInfo

structure ZipArchiveInfo where
  numberOfEntries : ℕ
  centralDirectorySize : ℕ
  headerOffset : ℕ
  comment : Bytes
  deriving DecidableEq, Repr

namespace ZipArchiveInfo

def HEADER : Bytes := [0x50, 0x4B, 0x05, 0x06]

/-- `ZipArchiveInfo::createHeader`, with the disk number 0. -/
def createHeader (i : ZipArchiveInfo) : Bytes :=
  HEADER ++ Bytes.bytesLE 2 0 ++ Bytes.bytesLE 2 0 ++ Bytes.bytesLE 2 i.numberOfEntries
    ++ Bytes.bytesLE 2 i.numberOfEntries ++ Bytes.bytesLE 4 i.centralDirectorySize
    ++ Bytes.bytesLE 4 i.headerOffset ++ Bytes.bytesLE 2 i.comment.length ++ i.comment

end ZipArchiveInfo

end Zip

end Poco
