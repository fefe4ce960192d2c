import Poco.Zip.Compress

/-!
# Extracting ZIP files

`Decompress::handleZipEntry` of `Zip/src/Decompress.cpp`: which paths an entry makes it open.
The name of an entry comes from the archive.  It is rejected if two dots are in it; otherwise
it becomes a path, and this path is resolved against the output directory.

## Main definitions

* `handleZipEntry`: `Decompress::handleZipEntry`, up to the opening of the file.
* `Inside`: a path with the node, the device and the directories of the output directory, and then
  directories without two dots.
* `Descends`: a name whose path is relative, and has a component.

## Main results

* `handleZipEntry_inside_iff`: the names with which extraction stays inside the output directory.
* `handleZipEntry_escapes`: it may leave it.
-/

namespace Poco.Zip

open Poco.Path

/-- `Decompress`.  The constructor makes the output directory absolute, and a directory. -/
structure Decompress where
  outDir : Path
  flattenDirs : Bool
  absolute : outDir.absolute = true
  directory : outDir.name = []

inductive Access where
  | createDirectories (dir : Path)
  | openFile (file : Path)
  deriving DecidableEq, Repr

def Access.path : Access → Path
  | .createDirectories dir => dir
  | .openFile file => file

/-- An exception leaves `handleZipEntry` for a directory, and becomes an event for a file. -/
inductive Rejection where
  | throws (e : ZipException)
  | notifies (e : ZipException)
  deriving DecidableEq, Repr

namespace Decompress

def new (outputDir : Path) (h : outputDir.absolute = true) (flattenDirs : Bool) : Decompress where
  outDir := outputDir.makeDirectory
  flattenDirs := flattenDirs
  absolute := by
    show (outputDir.pushDirectory outputDir.name).absolute = true
    rw [Path.absolute_pushDirectory, h]
  directory := rfl

def illegalName (name : Bytes) : ZipException :=
  ⟨"Illegal entry name ", name, " containing .."⟩

/-- The name of the file: without the path if directories are flattened. -/
def fileNameOf (home : List Bytes) (flattenDirs : Bool) (fileName : Bytes) :
    Bytes :=
  if flattenDirs then (Path.parseUnix home fileName).makeFile.name else fileName

def handleZipEntry (home : List Bytes) (d : Decompress) (hdr : ZipLocalFileHeader) :
    Except Rejection (List Access) :=
  if hdr.isDirectory then
    if !d.flattenDirs then
      let dirName := hdr.fileName
      if ILLEGAL_PATH <:+: dirName then .error (.throws (illegalName dirName))
      else .ok [.createDirectories (Path.ofFileName d.outDir dirName).makeDirectory]
    else .ok []
  else
    let fileName := fileNameOf home d.flattenDirs hdr.fileName
    if ILLEGAL_PATH <:+: fileName then .error (.notifies (illegalName fileName))
    else
      let file := (Path.parseUnix home fileName).makeFile
      let dest := (d.outDir.resolve file).makeFile
      .ok ((if dest.depth > 0 then [.createDirectories dest.parent] else []) ++ [.openFile dest])

structure Inside (outDir p : Path) : Prop where
  node : p.node = outDir.node
  device : p.device = outDir.device
  dirs : ∃ rest, p.dirs = outDir.dirs ++ rest ∧ ∀ d ∈ rest, ¬ Path.DOTDOT <:+: d

def Descends (home : List Bytes) (fileName : Bytes) : Prop :=
  (Path.parseUnix home fileName).absolute = false ∧
    (Path.parseUnix home fileName).makeFile.name ≠ []

instance (home : List Bytes) (fileName : Bytes) : Decidable (Descends home fileName) :=
  inferInstanceAs (Decidable (_ ∧ _))

section Inside

variable {home : List Bytes} {d : Decompress}

/-- The directory of an entry is one more component, whatever its name is. -/
theorem inside_directory (hdir : hdr.isDirectory = true)
    (h : d.handleZipEntry home hdr = .ok accesses) : ∀ a ∈ accesses, Inside d.outDir a.path := by
  rw [handleZipEntry, if_pos hdir] at h
  split at h
  · dsimp only at h
    split at h
    · cases h
    next hdots =>
    cases h
    intro a ha
    rw [List.mem_singleton.mp ha]
    -- the name ends with a slash
    have hlast : hdr.fileName.getLast? = some 0x2F := by
      rw [ZipLocalFileHeader.isDirectory, Bool.and_eq_true, beq_iff_eq] at hdir
      exact hdir.2
    have hpro : Path.Proper hdr.fileName := by
      refine ⟨?_, ?_, hdots⟩
      · intro hnil
        rw [hnil] at hlast
        cases hlast
      · intro hdot
        rw [hdot] at hlast
        cases hlast
    have hout : d.outDir.makeDirectory = { d.outDir with name := [], version := [] } := by
      rw [makeDirectory, d.directory]
      rfl
    have hpath : (ofFileName d.outDir hdr.fileName).makeDirectory
        = { d.outDir with dirs := d.outDir.dirs ++ [hdr.fileName], name := [], version := [] } := by
      rw [ofFileName, hout, makeDirectory, pushDirectory_of_proper hpro]
    rw [hpath]
    refine ⟨rfl, rfl, [hdr.fileName], rfl, ?_⟩
    intro e he
    rw [List.mem_singleton.mp he]
    exact hdots
  · cases h
    simp

def destOf (home : List Bytes) (outDir : Path) (fileName : Bytes) : Path :=
  (outDir.resolve (Path.parseUnix home fileName).makeFile).makeFile

theorem handleZipEntry_file (hdir : ¬ hdr.isDirectory = true)
    (hdots : ¬ ILLEGAL_PATH <:+: fileNameOf home d.flattenDirs hdr.fileName) :
    ∃ before : List Access,
      (∀ a ∈ before, a.path
        = (destOf home d.outDir (fileNameOf home d.flattenDirs hdr.fileName)).parent) ∧
      d.handleZipEntry home hdr = .ok (before ++
        [.openFile (destOf home d.outDir (fileNameOf home d.flattenDirs hdr.fileName))]) := by
  rw [handleZipEntry, if_neg hdir]
  rw [if_neg hdots]
  refine ⟨_, ?_, rfl⟩
  intro a ha
  split at ha
  · rw [List.mem_singleton.mp ha]
    rfl
  · cases ha

/-- A file whose path descends is below the output directory. -/
theorem inside_file (hdots : ¬ ILLEGAL_PATH <:+: fileName)
    (h : Descends home fileName) (outDir : Path) :
    Inside outDir (destOf home outDir fileName) ∧ (destOf home outDir fileName).name ≠ [] := by
  obtain ⟨hrel, hname⟩ := h
  have hpro : ∀ e ∈ (parseUnix home fileName).makeFile.dirs, Path.Proper e := fun e he =>
    proper_parseUnix hrel hdots e ((dirs_makeFile_sublist _).subset he)
  rw [destOf, resolve_of_proper ((absolute_makeFile _).trans hrel) hpro,
    makeFile_of_name (by exact hname)]
  exact ⟨⟨rfl, rfl, _, rfl, fun e he => (hpro e he).no_dotdot⟩, hname⟩

theorem Inside.parent {outDir p : Path} (h : Inside outDir p) (hname : p.name ≠ []) :
    Inside outDir p.parent := by
  rw [Path.parent, if_neg hname]
  exact ⟨h.node, h.device, h.dirs⟩

theorem Inside.length_le {outDir p : Path} (h : Inside outDir p) :
    outDir.dirs.length ≤ p.dirs.length := by
  obtain ⟨rest, hdirs, -⟩ := h.dirs
  rw [hdirs, List.length_append]
  omega

end Inside

def below (dirs : List Bytes) (flattenDirs : Bool) : Decompress :=
  new { dirs := dirs, absolute := true } rfl flattenDirs

theorem dirs_below (dirs : List Bytes) (flattenDirs : Bool) :
    (below dirs flattenDirs).outDir.dirs = dirs := rfl

/-- **The names with which extraction stays inside.**  An entry opens only paths inside the
output directory, whichever it is, if and only if it is a directory, is rejected for two dots,
or has a name whose path is relative and has a component. -/
theorem handleZipEntry_inside_iff (home : List Bytes) (flattenDirs : Bool)
    (hdr : ZipLocalFileHeader) :
    (∀ d : Decompress, d.flattenDirs = flattenDirs → ∀ accesses,
      d.handleZipEntry home hdr = .ok accesses → ∀ a ∈ accesses, Inside d.outDir a.path) ↔
    hdr.isDirectory = true ∨ ILLEGAL_PATH <:+: fileNameOf home flattenDirs hdr.fileName ∨
      Descends home (fileNameOf home flattenDirs hdr.fileName) := by
  constructor
  · intro h
    by_contra hnot
    obtain ⟨hdir, hdots, hdes⟩ := by simpa only [not_or] using hnot
    -- the file is opened, in every output directory
    have hopen : ∀ dirs : List Bytes, Inside (below dirs flattenDirs).outDir
        (destOf home (below dirs flattenDirs).outDir
          (fileNameOf home flattenDirs hdr.fileName)) := by
      intro dirs
      obtain ⟨before, -, hok⟩ := handleZipEntry_file (d := below dirs flattenDirs) hdir hdots
      exact h _ rfl _ hok _ (List.mem_append_right _ (List.mem_singleton_self _))
    generalize fileNameOf home flattenDirs hdr.fileName = fileName at hdots hdes hopen
    cases habs : (parseUnix home fileName).absolute with
    | true =>
      -- the output directory does not matter, and so a deep one is left
      have hin := (hopen (List.replicate
        ((parseUnix home fileName).makeFile.dirs.length + 1) [0x61])).length_le
      rw [destOf, resolve, absolute_makeFile, habs, if_pos rfl, dirs_below] at hin
      have hle := (dirs_makeFile_sublist (parseUnix home fileName).makeFile).length_le
      rw [List.length_replicate] at hin
      omega
    | false =>
      -- the output directory itself becomes the file
      have hname : (parseUnix home fileName).makeFile.name = [] := by
        by_contra hname
        exact hdes ⟨habs, hname⟩
      have hpro := proper_parseUnix habs hdots
      have hin := (hopen [[0x61]]).length_le
      rw [destOf, resolve, absolute_makeFile, habs, hname, dirs_of_name_makeFile hpro hname] at hin
      exact absurd (show 1 ≤ 0 from hin) (by decide)
  · rintro h d rfl accesses hok
    by_cases hdir : hdr.isDirectory = true
    · exact inside_directory hdir hok
    by_cases hdots : ILLEGAL_PATH <:+: fileNameOf home d.flattenDirs hdr.fileName
    · rw [handleZipEntry, if_neg hdir] at hok
      rw [if_pos hdots] at hok
      cases hok
    have hdes := (h.resolve_left hdir).resolve_left hdots
    obtain ⟨hin, hname⟩ := inside_file hdots hdes d.outDir
    obtain ⟨before, hbef, hok'⟩ := handleZipEntry_file hdir hdots
    cases hok'.symm.trans hok
    intro a ha
    rcases List.mem_append.mp ha with ha | ha
    · rw [hbef a ha]
      exact hin.parent hname
    · rw [List.mem_singleton.mp ha]
      exact hin

def entryNamed (fileName : Bytes) : ZipLocalFileHeader where
  version := 20
  hostSystem := HS_UNIX
  gpLow := 0
  gpHigh := 0
  compressionMethod := CM_STORE
  lastModifiedAt := Compress.firstDay
  crc32 := 0
  compressedSize := 1
  uncompressedSize := 1
  fileName := fileName
  extraField := []
  startPos := 0
  endPos := 0
  extraField_lt := ZipLocalFileHeader.length_nil_lt

/-- The entry `/e/p` goes to `/e/p`, and not below the output directory `/o`. -/
theorem handleZipEntry_escapes :
    handleZipEntry [] (below [[0x6F]] false) (entryNamed [0x2F, 0x65, 0x2F, 0x70])
        = .ok [.createDirectories { dirs := [[0x65]], absolute := true },
          .openFile { dirs := [[0x65]], name := [0x70], absolute := true }] ∧
      ¬ Inside (below [[0x6F]] false).outDir
        { dirs := [[0x65]], name := [0x70], absolute := true } := by
  refine ⟨by decide, ?_⟩
  intro h
  obtain ⟨rest, hdirs, -⟩ := h.dirs
  exact absurd (List.cons.inj hdirs).1 (by decide)

end Decompress

end Poco.Zip
