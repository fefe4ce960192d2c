import Poco.Lib.Bytes

/-!
# Paths

`Path` of `Foundation/src/Path.cpp`, in the Unix style.  A path is parsed into its parts,
and most operations work on the parts; what a part holds is not checked by them.

## Main definitions

* `Path`, `pushDirectory`, `resolve`: a path and what changes its directories.
* `parseUnix`, `buildUnix`: a text is parsed, and built.
* `Proper`: a directory that `pushDirectory` appends to any path.

## Main results

* `proper_parseUnix`: a relative path that was parsed has proper directories.
* `resolve_of_proper`: resolving a relative path with proper directories.
-/

namespace Poco

open List

structure Path where
  node : Bytes := []
  device : Bytes := []
  name : Bytes := []
  version : Bytes := []
  dirs : List Bytes := []
  absolute : Bool := false
  deriving DecidableEq, Repr

namespace Path

def isDirectory (p : Path) : Bool := p.name.isEmpty

def isFile (p : Path) : Bool := !p.name.isEmpty

def depth (p : Path) : ℕ := p.dirs.length

def DOT : Bytes := [0x2E]

def DOTDOT : Bytes := [0x2E, 0x2E]

def pushDirectory (p : Path) (dir : Bytes) : Path :=
  if dir ≠ [] ∧ dir ≠ DOT then
    if dir = DOTDOT then
      if p.dirs ≠ [] ∧ p.dirs.getLast? ≠ some DOTDOT then { p with dirs := p.dirs.dropLast }
      else if !p.absolute then { p with dirs := p.dirs ++ [dir] }
      else p
    else { p with dirs := p.dirs ++ [dir] }
  else p

def makeDirectory (p : Path) : Path :=
  { p.pushDirectory p.name with name := [], version := [] }

def makeFile (p : Path) : Path :=
  match p.dirs.getLast? with
  | some dir => if p.name = [] then { p with name := dir, dirs := p.dirs.dropLast } else p
  | none => p

def parent (p : Path) : Path :=
  if p.name = [] then
    if p.dirs = [] then
      if !p.absolute then { p with dirs := [DOTDOT] } else p
    else if p.dirs.getLast? = some DOTDOT then { p with dirs := p.dirs ++ [DOTDOT] }
    else { p with dirs := p.dirs.dropLast }
  else { p with name := [], version := [] }

/-- `Path::resolve`, which is also the constructor from a parent and a relative path. -/
def resolve (p path : Path) : Path :=
  if path.absolute then path
  else { path.dirs.foldl pushDirectory p with name := path.name }

def ofFileName (parent : Path) (fileName : Bytes) : Path :=
  { parent.makeDirectory with name := fileName }

def setDevice (p : Path) (device : Bytes) : Path :=
  { p with device := device, absolute := p.absolute || !device.isEmpty }

/-- `Path::buildUnix`, which is `toString` in the Unix style. -/
def buildUnix (p : Path) : Bytes :=
  (if p.device ≠ [] then 0x2F :: p.device ++ [0x3A, 0x2F]
    else if p.absolute then [0x2F] else [])
    ++ p.dirs.flatMap (fun dir => dir ++ [0x2F]) ++ p.name

/-- A component with a slash after it: a device, if there is no directory yet and it ends
with a colon, or a directory. -/
def pushComponent (p : Path) (name : Bytes) : Path :=
  if p.dirs = [] ∧ name.getLast? = some 0x3A then
    { p with absolute := true, device := name.dropLast }
  else p.pushDirectory name

/-- The loop of `parseUnix`, with the component read so far. -/
def parseComponents : Path → Bytes → Bytes → Path
  | p, name, [] => { p with name := name }
  | p, name, c :: s =>
    if c = 0x2F then parseComponents (p.pushComponent name) [] s
    else parseComponents p (name ++ [c]) s

/-- `Path::parseUnix`, where `home` are the directories of the path of `Path::home`. -/
def parseUnix (home : List Bytes) (path : Bytes) : Path :=
  match path with
  | [] => {}
  | c :: s =>
    if c = 0x2F then parseComponents { absolute := true } [] s
    else if c = 0x7E ∧ (s = [] ∨ s.head? = some 0x2F) then
      parseComponents { dirs := home, absolute := true } [] s
    else parseComponents {} [] path

/-! ### Proper directories -/

structure Proper (dir : Bytes) : Prop where
  ne_nil : dir ≠ []
  ne_dot : dir ≠ DOT
  no_dotdot : ¬ DOTDOT <:+: dir

variable {dir name : Bytes} {p : Path}

theorem pushDirectory_of_proper (h : Proper dir) (p : Path) :
    p.pushDirectory dir = { p with dirs := p.dirs ++ [dir] } := by
  rw [pushDirectory, if_pos ⟨h.ne_nil, h.ne_dot⟩, if_neg]
  rintro rfl
  exact h.no_dotdot (infix_refl _)

/-- What `pushDirectory` can do: the last directory is dropped, or one is appended. -/
theorem pushDirectory_cases (p : Path) (dir : Bytes) : ∃ dirs,
    p.pushDirectory dir = { p with dirs := dirs } ∧ (dirs <+: p.dirs ∨ dirs = p.dirs ++ [dir]) := by
  rw [pushDirectory]
  split_ifs
  · exact ⟨_, rfl, .inl <| dropLast_prefix _⟩
  · exact ⟨_, rfl, .inr rfl⟩
  · exact ⟨_, rfl, .inl (prefix_refl _)⟩
  · exact ⟨_, rfl, .inr rfl⟩
  · exact ⟨_, rfl, .inl (prefix_refl _)⟩

@[simp] theorem absolute_pushDirectory (p : Path) (dir : Bytes) :
    (p.pushDirectory dir).absolute = p.absolute := by
  obtain ⟨dirs, h, -⟩ := pushDirectory_cases p dir
  rw [h]

theorem proper_pushDirectory (hp : ∀ d ∈ p.dirs, Proper d) (hdir : ¬ DOTDOT <:+: dir) :
    ∀ d ∈ (p.pushDirectory dir).dirs, Proper d := by
  by_cases h : dir ≠ [] ∧ dir ≠ DOT
  · have hpro : Proper dir := ⟨h.1, h.2, hdir⟩
    rw [pushDirectory_of_proper hpro]
    exact forall_mem_append.mpr ⟨hp, forall_mem_singleton.mpr hpro⟩
  · rw [pushDirectory, if_neg h]
    exact hp

theorem absolute_pushComponent (h : p.absolute = true) (name : Bytes) :
    (p.pushComponent name).absolute = true := by
  rw [pushComponent]
  split
  · rfl
  · rw [absolute_pushDirectory, h]

theorem proper_pushComponent (hp : ∀ d ∈ p.dirs, Proper d) (hname : ¬ DOTDOT <:+: name) :
    ∀ d ∈ (p.pushComponent name).dirs, Proper d := by
  rw [pushComponent]
  split
  · exact hp
  · exact proper_pushDirectory hp hname

theorem absolute_parseComponents (h : p.absolute = true) (name s : Bytes) :
    (parseComponents p name s).absolute = true := by
  induction s generalizing p name with
  | nil => exact h
  | cons c s ih =>
    rw [parseComponents]
    split
    · exact ih (absolute_pushComponent h name) []
    · exact ih h _

theorem proper_parseComponents (hp : ∀ d ∈ p.dirs, Proper d)
    (hs : ¬ DOTDOT <:+: name ++ s) : ∀ d ∈ (parseComponents p name s).dirs, Proper d := by
  induction s generalizing p name with
  | nil => exact hp
  | cons c s ih =>
    rw [parseComponents]
    split
    · refine ih (proper_pushComponent hp fun h => hs ?_) fun h => hs ?_
      · exact h.trans (prefix_append _ _).isInfix
      · exact h.trans ((suffix_cons c s).trans (suffix_append _ _)).isInfix
    · exact ih hp (by rwa [append_assoc])

theorem proper_parseUnix {home : List Bytes} {path : Bytes}
    (hrel : (parseUnix home path).absolute = false) (h : ¬ DOTDOT <:+: path) :
    ∀ d ∈ (parseUnix home path).dirs, Proper d := by
  cases path with
  | nil => exact nofun
  | cons c s =>
    rw [parseUnix] at hrel ⊢
    split at hrel
    · rw [absolute_parseComponents rfl] at hrel
      cases hrel
    next hsl =>
    split at hrel
    · rw [absolute_parseComponents rfl] at hrel
      cases hrel
    · next htil =>
      rw [if_neg hsl, if_neg htil]
      exact proper_parseComponents (fun _ hd => absurd hd not_mem_nil) h

theorem foldl_pushDirectory {dirs : List Bytes} (h : ∀ d ∈ dirs, Proper d) (p : Path) :
    dirs.foldl pushDirectory p = { p with dirs := p.dirs ++ dirs } := by
  induction dirs generalizing p with
  | nil => simp
  | cons d dirs ih =>
    rw [foldl_cons, pushDirectory_of_proper (h d mem_cons_self),
      ih fun e he => h e (mem_cons_of_mem _ he)]
    simp

theorem resolve_of_proper {path : Path} (hrel : path.absolute = false)
    (h : ∀ d ∈ path.dirs, Proper d) (p : Path) :
    p.resolve path = { p with dirs := p.dirs ++ path.dirs, name := path.name } := by
  rw [resolve, hrel, if_neg Bool.false_ne_true, foldl_pushDirectory h]

/-! ### Files -/

theorem makeFile_of_name (h : p.name ≠ []) : p.makeFile = p := by
  rw [makeFile]
  split
  · rw [if_neg h]
  · rfl

@[simp] theorem absolute_makeFile (p : Path) : p.makeFile.absolute = p.absolute := by
  rw [makeFile]
  split
  · split
    · rfl
    · rfl
  · rfl

theorem dirs_makeFile_sublist (p : Path) : p.makeFile.dirs.Sublist p.dirs := by
  rw [makeFile]
  split
  · split
    · exact dropLast_sublist _
    · exact List.Sublist.refl _
  · exact List.Sublist.refl _

/-- A path of proper directories that has no name as a file has no directory either. -/
theorem dirs_of_name_makeFile (h : ∀ d ∈ p.dirs, Proper d) (hname : p.makeFile.name = []) :
    p.makeFile.dirs = [] := by
  rw [makeFile] at hname ⊢
  split at hname
  · next dir hlast =>
    split at hname
    · exact absurd hname (h dir (mem_of_getLast? hlast)).ne_nil
    · next hp => exact absurd hname hp
  · next hlast => rw [getLast?_eq_none_iff.mp hlast]

end Path

end Poco
