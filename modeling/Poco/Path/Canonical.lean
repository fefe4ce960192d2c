import Poco.Lib.Outcome
import Poco.Lib.Separated
import Poco.Path

/-!
# Canonical directories

Parsing, in the Unix and in the Windows style, pushes one directory after the other, and so do
most of the operations.  Not all of them do: `append` puts the directories of another path behind
those there are, and `setNode` and `setDevice` make a path absolute.

## Main definitions

* `Canonical`: directories as `pushDirectory` keeps them: none is empty or the directory itself,
  and parent directories come first, if there are any; in an absolute path there are none.
* `parseWindows`: a text in the Windows style is parsed.
* `Built`: paths that are parsed, and those that operations make of them whose uses all meet a
  condition.  The other path of an operation is a path of that kind as well.
* `Keeps`: parents are only appended to parents, and a path with parents is not made absolute.

## Main results

* `Canonical.pushDirectory`: the form is kept by pushing a directory, whatever it is.
* `canonical_of_built`: such paths have canonical directories.
-/

namespace Poco.Path

open List

/-! ### The form of directories -/

structure Canonical (p : Path) : Prop where
  named : ∀ d ∈ p.dirs, d ≠ [] ∧ d ≠ DOT
  leading : ∃ k rest, p.dirs = List.replicate k DOTDOT ++ rest ∧ DOTDOT ∉ rest
  rooted : p.absolute = true → DOTDOT ∉ p.dirs

variable {p q : Path} {dir : Bytes}

theorem Canonical.congr (h : Canonical p) (hdirs : q.dirs = p.dirs)
    (habs : q.absolute = true → p.absolute = true) : Canonical q where
  named := hdirs ▸ h.named
  leading := hdirs ▸ h.leading
  rooted := fun hq => hdirs ▸ h.rooted (habs hq)

theorem canonical_nil (hdirs : p.dirs = []) : Canonical p where
  named := by
    rw [hdirs]
    exact fun _ hd => absurd hd not_mem_nil
  leading := ⟨0, [], hdirs, not_mem_nil⟩
  rooted := by
    rw [hdirs]
    exact fun _ => not_mem_nil

theorem Canonical.dropLast (h : Canonical p) : Canonical { p with dirs := p.dirs.dropLast } where
  named := fun d hd => h.named d (dropLast_subset _ hd)
  leading := by
    obtain ⟨k, rest, hdirs, hrest⟩ := h.leading
    rcases eq_nil_or_concat' rest with rfl | ⟨rest, d, rfl⟩
    · refine ⟨k - 1, [], ?_, not_mem_nil⟩
      rw [hdirs, append_nil, append_nil, dropLast_replicate]
    · refine ⟨k, rest, ?_, fun hmem => hrest (mem_append_left _ hmem)⟩
      rw [hdirs, ← append_assoc, dropLast_concat]
  rooted := fun habs hmem => h.rooted habs (dropLast_subset _ hmem)

theorem Canonical.concat (h : Canonical p) (hne : dir ≠ []) (hdot : dir ≠ DOT)
    (hdtd : dir ≠ DOTDOT) : Canonical { p with dirs := p.dirs ++ [dir] } where
  named := forall_mem_append.mpr ⟨h.named, forall_mem_singleton.mpr ⟨hne, hdot⟩⟩
  leading := by
    obtain ⟨k, rest, hdirs, hrest⟩ := h.leading
    refine ⟨k, rest ++ [dir], by rw [hdirs, append_assoc], not_mem_append hrest ?_⟩
    exact fun hmem => hdtd (mem_singleton.mp hmem).symm
  rooted := by
    refine fun habs => not_mem_append (h.rooted habs) ?_
    exact fun hmem => hdtd (mem_singleton.mp hmem).symm

/-- If the last directory is a parent, or there is none, then all are parents. -/
theorem Canonical.eq_replicate (h : Canonical p)
    (hlast : ¬ (p.dirs ≠ [] ∧ p.dirs.getLast? ≠ some DOTDOT)) :
    ∃ k, p.dirs = List.replicate k DOTDOT := by
  obtain ⟨k, rest, hdirs, hrest⟩ := h.leading
  rcases eq_nil_or_concat' rest with rfl | ⟨rest, d, rfl⟩
  · exact ⟨k, by rw [hdirs, append_nil]⟩
  refine absurd ⟨?_, ?_⟩ hlast
  · rw [hdirs, ← append_assoc]
    exact concat_ne_nil _ _
  · rw [hdirs, ← append_assoc, getLast?_concat]
    intro heq
    refine hrest (mem_append_right _ ?_)
    rw [Option.some.inj heq]
    exact mem_singleton_self _

theorem canonical_replicate (hdirs : p.dirs = List.replicate k DOTDOT)
    (hrel : p.absolute = false) : Canonical { p with dirs := p.dirs ++ [DOTDOT] } where
  named := by
    intro d hd
    rw [hdirs, ← replicate_succ'] at hd
    rw [eq_of_mem_replicate hd]
    decide
  leading := by
    refine ⟨k + 1, [], ?_, not_mem_nil⟩
    rw [hdirs, replicate_succ', append_nil]
  rooted := by
    intro habs
    rw [hrel] at habs
    cases habs

theorem Canonical.pushDirectory (h : Canonical p) (dir : Bytes) :
    Canonical (p.pushDirectory dir) := by
  rw [Path.pushDirectory]
  split_ifs with hdir hdot hlast hrel
  · exact h.dropLast
  · obtain ⟨k, hk⟩ := h.eq_replicate hlast
    rw [hdot]
    exact canonical_replicate hk (by simpa using hrel)
  · exact h
  · exact h.concat hdir.1 hdir.2 hdot
  · exact h

theorem Canonical.foldl_pushDirectory (h : Canonical p) (dirs : List Bytes) :
    Canonical (dirs.foldl Path.pushDirectory p) :=
  foldlRecOn dirs _ h fun _ hq d _ => hq.pushDirectory d

/-! ### Parsing -/

theorem parseComponents_eq_scan (p : Path) (name s : Bytes) : parseComponents p name s =
    { (Separated.scan (· == 0x2F) pushComponent p name s).1 with
      name := (Separated.scan (· == 0x2F) pushComponent p name s).2 } := by
  induction s generalizing p name with
  | nil => rfl
  | cons c s ih =>
    rw [parseComponents, Separated.scan]
    by_cases hc : c = 0x2F
    · rw [if_pos hc, if_pos (beq_iff_eq.mpr hc)]
      exact ih _ _
    · rw [if_neg hc, if_neg (beq_iff_eq.not.mpr hc)]
      exact ih _ _

/-- A device is only taken where there is no directory. -/
theorem Canonical.pushComponent (h : Canonical p) (name : Bytes) :
    Canonical (p.pushComponent name) := by
  rw [Path.pushComponent]
  split_ifs with hdev
  · exact canonical_nil hdev.1
  · exact h.pushDirectory name

theorem Canonical.parseComponents (h : Canonical p) (s : Bytes) :
    Canonical (parseComponents p [] s) := by
  rw [parseComponents_eq_scan]
  exact (Separated.scan_invariant h (fun _ part hq _ => hq.pushComponent part) s).1.congr rfl id

/-- What `Path::home` returns: the text of an absolute path. -/
structure Home where
  path : Bytes
  absolute : path.head? = some 0x2F

def Home.dirs (home : Home) : List Bytes := (parseUnix [] home.path).dirs

/-- The text is that of an absolute path, so that its own parsing needs no home directory. -/
theorem Home.parseUnix_path (home : Home) :
    ∃ s, parseUnix [] home.path = parseComponents { absolute := true } [] s := by
  obtain ⟨s, hs⟩ := head?_eq_some_iff.mp home.absolute
  refine ⟨s, ?_⟩
  rw [hs, parseUnix, if_pos rfl]

theorem Home.canonical (home : Home) : Canonical { dirs := home.dirs, absolute := true } := by
  obtain ⟨s, hs⟩ := home.parseUnix_path
  have h : Canonical (parseComponents { absolute := true } [] s) :=
    (canonical_nil rfl).parseComponents s
  rw [← hs] at h
  refine h.congr rfl fun _ => ?_
  rw [hs]
  exact absolute_parseComponents rfl [] s

theorem canonical_parseUnix (home : Home) (s : Bytes) : Canonical (parseUnix home.dirs s) := by
  cases s with
  | nil => exact canonical_nil rfl
  | cons c s =>
    rw [parseUnix]
    split_ifs
    · exact (canonical_nil rfl).parseComponents s
    · exact home.canonical.parseComponents s
    · exact (canonical_nil rfl).parseComponents (c :: s)

structure PathSyntaxException where
  path : Bytes
deriving DecidableEq

def isSeparator (c : UInt8) : Bool := c == 0x5C || c == 0x2F

def isDriveLetter (d : UInt8) : Bool := (0x61 ≤ d && d ≤ 0x7A) || (0x41 ≤ d && d ≤ 0x5A)

/-- The loop of `parseWindows`, with the component read so far. -/
def parseWindowsComponents : Path → Bytes → Bytes → Path
  | p, name, [] => { p with name := name }
  | p, name, c :: s =>
    if isSeparator c then parseWindowsComponents (p.pushDirectory name) [] s
    else parseWindowsComponents p (name ++ [c]) s

/-- The part of `parseWindows` before the loop: the path, and the text that is left. -/
def parseWindowsRoot (path : Bytes) : Except PathSyntaxException (Path × Bytes) :=
  let absolute := path.head?.any isSeparator
  let s := if absolute then path.tail else path
  if absolute ∧ s.head?.any isSeparator then
    -- a node
    let s := s.tail
    .ok ({ node := s.takeWhile (!isSeparator ·), absolute := true },
      (s.dropWhile (!isSeparator ·)).tail)
  else
    match s with
    | d :: c :: s' =>
      if c = 0x3A then
        -- a drive
        if absolute ∨ isDriveLetter d = false then .error ⟨path⟩
        else if s'.head?.any isSeparator then
          .ok ({ device := [d], absolute := true }, s'.tail)
        else .error ⟨path⟩
      else .ok ({ absolute := absolute }, s)
    | _ => .ok ({ absolute := absolute }, s)

/-- The last statement of `parseWindows`: a component that follows a node is a directory. -/
def parseWindowsShare (p : Path) : Path :=
  if p.node ≠ [] ∧ p.dirs = [] ∧ p.name ≠ [] then p.makeDirectory else p

def parseWindows (path : Bytes) : Except PathSyntaxException Path :=
  (parseWindowsRoot path).map fun r => parseWindowsShare (parseWindowsComponents r.1 [] r.2)

theorem parseWindowsComponents_eq_scan (p : Path) (name s : Bytes) :
    parseWindowsComponents p name s =
      { (Separated.scan isSeparator Path.pushDirectory p name s).1 with
        name := (Separated.scan isSeparator Path.pushDirectory p name s).2 } := by
  induction s generalizing p name with
  | nil => rfl
  | cons c s ih =>
    rw [parseWindowsComponents, Separated.scan]
    split_ifs
    · exact ih _ _
    · exact ih _ _

theorem Canonical.parseWindowsComponents (h : Canonical p) (s : Bytes) :
    Canonical (parseWindowsComponents p [] s) := by
  rw [parseWindowsComponents_eq_scan]
  exact (Separated.scan_invariant h (fun _ part hq _ => hq.pushDirectory part) s).1.congr rfl id

/-- What the beginning of a text is read as: a node, a drive, a separator, or nothing. -/
inductive Root : Bytes → Path × Bytes → Prop
  | node {c c' : UInt8} (hc : isSeparator c = true) (hc' : isSeparator c' = true)
      (t : Bytes) : Root (c :: c' :: t)
        ({ node := t.takeWhile (!isSeparator ·), absolute := true },
          (t.dropWhile (!isSeparator ·)).tail)
  | drive {d c : UInt8} (hd : isDriveLetter d = true) (hc : isSeparator c = true)
      (t : Bytes) : Root (d :: 0x3A :: c :: t) ({ device := [d], absolute := true }, t)
  | separator {c : UInt8} (hc : isSeparator c = true) {t : Bytes}
      (ht : ∀ c ∈ t.head?, isSeparator c = false) (hcolon : t[1]? ≠ some 0x3A) :
      Root (c :: t) ({ absolute := true }, t)
  | relative {t : Bytes} (ht : ∀ c ∈ t.head?, isSeparator c = false)
      (hcolon : t[1]? ≠ some 0x3A) : Root t ({}, t)

variable {s : Bytes} {path : Path}

theorem parseWindowsRoot_ok (h : parseWindowsRoot s = .ok r) : Root s r := by
  rcases s with _ | ⟨c, _ | ⟨e, t⟩⟩
  · cases h
    exact .relative (by simp) (by simp)
  · cases hc : isSeparator c <;> simp [parseWindowsRoot, hc] at h <;> subst h
    · exact .relative (by simpa using hc) (by simp)
    · exact .separator hc (by simp) (by simp)
  cases hc : isSeparator c with
  | false =>
    simp only [parseWindowsRoot, head?_cons, Option.any_some, hc, Bool.false_eq_true, false_and,
      if_false, false_or] at h
    split_ifs at h with he hdri hsep
    · obtain ⟨c', t, rfl⟩ := exists_cons_of_ne_nil (l := t) (by rintro rfl; cases hsep)
      cases h
      subst he
      exact .drive (by simpa using hdri) hsep t
    · cases h
      exact .relative (by simpa using hc) (by simpa using he)
  | true =>
    cases he : isSeparator e with
    | true =>
      simp [parseWindowsRoot, hc, he] at h
      subst h
      exact .node hc he t
    | false =>
      cases t with
      | nil =>
        simp [parseWindowsRoot, hc, he] at h
        subst h
        exact .separator hc (by simpa using he) (by simp)
      | cons d t =>
        simp only [parseWindowsRoot, head?_cons, Option.any_some, hc, he, tail_cons, if_true,
          Bool.false_eq_true, and_false, if_false, true_or] at h
        split_ifs at h with hd
        cases h
        exact .separator hc (by simpa using he) (by simpa using hd)

theorem Root.dirs (h : Root s r) : r.1.dirs = [] := by
  cases h with
  | node | drive | separator | relative => rfl

theorem Canonical.makeDirectory (h : Canonical p) : Canonical p.makeDirectory :=
  (h.pushDirectory p.name).congr rfl id

theorem parseWindows_ok (h : parseWindows s = .ok p) :
    ∃ r, Root s r ∧ p = parseWindowsShare (parseWindowsComponents r.1 [] r.2) := by
  obtain ⟨r, hroot, rfl⟩ := Except.map_eq_ok.mp h
  exact ⟨r, parseWindowsRoot_ok hroot, rfl⟩

theorem canonical_parseWindows (h : parseWindows s = .ok p) : Canonical p := by
  obtain ⟨r, hroot, rfl⟩ := parseWindows_ok h
  have hloop : Canonical (Path.parseWindowsComponents r.1 [] r.2) :=
    (canonical_nil hroot.dirs).parseWindowsComponents r.2
  rw [parseWindowsShare]
  split_ifs
  · exact hloop.makeDirectory
  · exact hloop

/-! ### Operations -/

/-- `Path::popDirectory`, which asserts that there is a directory. -/
def popDirectory (p : Path) : Option Path :=
  if p.dirs = [] then none else some { p with dirs := p.dirs.dropLast }

def makeAbsolute (p base : Path) : Path :=
  if !p.absolute then
    let tmp := p.dirs.foldl pushDirectory base.makeDirectory
    { p with
      node := tmp.node
      device := tmp.device
      dirs := tmp.dirs
      absolute := base.absolute }
  else p

def append (p path : Path) : Path :=
  { p.makeDirectory with
    dirs := p.makeDirectory.dirs ++ path.dirs
    name := path.name
    version := path.version }

def setNode (p : Path) (node : Bytes) : Path :=
  { p with node := node, absolute := p.absolute || !node.isEmpty }

inductive Action
  | pushDirectory (dir : Bytes)
  | popDirectory
  | makeDirectory
  | makeFile
  | makeParent
  | makeAbsolute (base : Path)
  | append (path : Path)
  | resolve (path : Path)
  | setDevice (device : Bytes)
  | setNode (node : Bytes)

def Action.argument : Action → Option Path
  | .makeAbsolute path | .append path | .resolve path => some path
  | .pushDirectory _ | .popDirectory | .makeDirectory | .makeFile | .makeParent
  | .setDevice _ | .setNode _ => none

def perform (p : Path) : Action → Option Path
  | .pushDirectory dir => some (p.pushDirectory dir)
  | .popDirectory => p.popDirectory
  | .makeDirectory => some p.makeDirectory
  | .makeFile => some p.makeFile
  | .makeParent => some p.parent
  | .makeAbsolute base => some (p.makeAbsolute base)
  | .append path => some (p.append path)
  | .resolve path => some (p.resolve path)
  | .setDevice device => some (p.setDevice device)
  | .setNode node => some (p.setNode node)

inductive Built (home : Home) (G : Path → Action → Prop) : Path → Prop
  | parseUnix (s : Bytes) : Built home G (parseUnix home.dirs s)
  | parseWindows {s : Bytes} {p : Path} : parseWindows s = .ok p → Built home G p
  | perform {p p' : Path} {a : Action} : Built home G p →
    (∀ q, a.argument = some q → Built home G q) → G p a → p.perform a = some p' → Built home G p'

def Keeps (p : Path) : Action → Prop
  | .append path => DOTDOT ∈ path.dirs →
    p.absolute = false ∧ ∀ d ∈ p.makeDirectory.dirs, d = DOTDOT
  | .setDevice s | .setNode s => s ≠ [] → DOTDOT ∉ p.dirs
  | .pushDirectory _ | .popDirectory | .makeDirectory | .makeFile | .makeParent
  | .makeAbsolute _ | .resolve _ => True

theorem Canonical.makeFile (h : Canonical p) : Canonical p.makeFile := by
  rw [Path.makeFile]
  split
  · split_ifs
    · exact h.dropLast.congr rfl id
    · exact h
  · exact h

theorem Canonical.parent (h : Canonical p) : Canonical p.parent := by
  rw [Path.parent]
  split_ifs with hname hdirs hrel hlast
  · have hnil : p.dirs = List.replicate 0 DOTDOT := hdirs
    refine (canonical_replicate hnil (by simpa using hrel)).congr ?_ id
    rw [hdirs]
    rfl
  · exact h
  · -- the last one is a parent, so that the path is relative
    obtain ⟨k, hk⟩ := h.eq_replicate fun hne => hne.2 hlast
    refine canonical_replicate hk ?_
    by_contra habs
    exact h.rooted (by simpa using habs) (mem_of_getLast? hlast)
  · exact h.dropLast
  · exact h.congr rfl id

theorem absolute_foldl_pushDirectory (dirs : List Bytes) (p : Path) :
    (dirs.foldl Path.pushDirectory p).absolute = p.absolute :=
  foldlRecOn (motive := fun q => q.absolute = p.absolute) dirs _ rfl
    fun q hq d _ => (absolute_pushDirectory q d).trans hq

theorem absolute_makeDirectory (p : Path) : p.makeDirectory.absolute = p.absolute :=
  absolute_pushDirectory p p.name

section

variable (h : Canonical p)
include h

theorem Canonical.makeAbsolute (hbase : Canonical base) : Canonical (p.makeAbsolute base) := by
  rw [Path.makeAbsolute]
  split_ifs
  · refine (hbase.makeDirectory.foldl_pushDirectory p.dirs).congr rfl ?_
    rw [absolute_foldl_pushDirectory, absolute_makeDirectory]
    exact id
  · exact h

theorem Canonical.resolve (hpath : Canonical path) : Canonical (p.resolve path) := by
  rw [Path.resolve]
  split_ifs
  · exact hpath
  · exact (h.foldl_pushDirectory path.dirs).congr rfl id

/-- Directories are appended that are no parents, or to parents. -/
theorem Canonical.append (hpath : Canonical path)
    (hkps : Keeps p (.append path)) : Canonical (p.append path) where
  named := forall_mem_append.mpr ⟨h.makeDirectory.named, hpath.named⟩
  leading := by
    change ∃ k rest, p.makeDirectory.dirs ++ path.dirs = _ ∧ _
    by_cases hmem : DOTDOT ∈ path.dirs
    · obtain ⟨k, hk⟩ : ∃ k, p.makeDirectory.dirs = List.replicate k DOTDOT :=
        ⟨_, eq_replicate_of_mem (hkps hmem).2⟩
      obtain ⟨j, rest, hdirs, hrest⟩ := hpath.leading
      refine ⟨k + j, rest, ?_, hrest⟩
      rw [hk, hdirs, ← append_assoc, replicate_append_replicate]
    · obtain ⟨k, rest, hdirs, hrest⟩ := h.makeDirectory.leading
      exact ⟨k, rest ++ path.dirs, by rw [hdirs, append_assoc], not_mem_append hrest hmem⟩
  rooted := by
    intro habs
    have hp : p.absolute = true := (absolute_makeDirectory p).symm.trans habs
    refine not_mem_append (h.makeDirectory.rooted habs) fun hmem => ?_
    rw [(hkps hmem).1] at hp
    cases hp

theorem Canonical.root (hkps : s ≠ [] → DOTDOT ∉ p.dirs)
    (hdirs : q.dirs = p.dirs) (habs : q.absolute = (p.absolute || !s.isEmpty)) :
    Canonical q where
  named := hdirs ▸ h.named
  leading := hdirs ▸ h.leading
  rooted := by
    intro hq
    rw [habs, Bool.or_eq_true] at hq
    rw [hdirs]
    rcases hq with hp | hs
    · exact h.rooted hp
    · refine hkps ?_
      rintro rfl
      cases hs

theorem Canonical.perform (harg : ∀ q, a.argument = some q → Canonical q) (hkps : Keeps p a)
    (hok : p.perform a = some q) : Canonical q := by
  cases a with
  | pushDirectory dir =>
    cases hok
    exact h.pushDirectory dir
  | popDirectory =>
    rw [Path.perform, popDirectory] at hok
    split_ifs at hok
    cases hok
    exact h.dropLast
  | makeDirectory =>
    cases hok
    exact h.makeDirectory
  | makeFile =>
    cases hok
    exact h.makeFile
  | makeParent =>
    cases hok
    exact h.parent
  | makeAbsolute base =>
    cases hok
    exact h.makeAbsolute (harg base rfl)
  | append path =>
    cases hok
    exact h.append (harg path rfl) hkps
  | resolve path =>
    cases hok
    exact h.resolve (harg path rfl)
  | setDevice device | setNode node =>
    cases hok
    exact h.root hkps rfl rfl

end

/-- Paths that are parsed, and changed by operations that keep parents at the front of relative
paths, have canonical directories. -/
theorem canonical_of_built (home : Home) (p : Path) (h : Built home Keeps p) : Canonical p := by
  induction h with
  | parseUnix s => exact canonical_parseUnix home s
  | parseWindows hok => exact canonical_parseWindows hok
  | perform _ _ hkps hok ih harg => exact ih.perform harg hkps hok

/-- `../a/` is appended to `../`. -/
theorem canonical_parents : ∃ p, Built ⟨[0x2F], rfl⟩ Keeps p ∧
    p.dirs = [DOTDOT, DOTDOT, [0x61]] ∧ Canonical p := by
  have h₁ : Built ⟨[0x2F], rfl⟩ Keeps { dirs := [DOTDOT] } :=
    .parseUnix [0x2E, 0x2E, 0x2F]
  have h₂ : Built ⟨[0x2F], rfl⟩ Keeps { dirs := [DOTDOT, [0x61]] } :=
    .parseUnix [0x2E, 0x2E, 0x2F, 0x61, 0x2F]
  have h₃ : Built ⟨[0x2F], rfl⟩ Keeps { dirs := [DOTDOT, DOTDOT, [0x61]] } := by
    refine .perform (a := .append { dirs := [DOTDOT, [0x61]] }) h₁ ?_ (fun _ => by decide) rfl
    intro q hq
    cases hq
    exact h₂
  exact ⟨_, h₃, rfl, canonical_of_built _ _ h₃⟩

/-- Appending `../b` to `a/` leaves a parent behind a directory, and setting the device of `../`
makes an absolute path of it. -/
theorem not_canonical :
    (∃ p, Built ⟨[0x2F], rfl⟩ (fun _ _ => True) p ∧ p.dirs = [[0x61], DOTDOT] ∧ ¬ Canonical p) ∧
    ∃ p, Built ⟨[0x2F], rfl⟩ (fun _ _ => True) p ∧ p.absolute = true ∧ p.dirs = [DOTDOT] ∧
      ¬ Canonical p := by
  constructor
  · have h₁ : Built ⟨[0x2F], rfl⟩ (fun _ _ => True) { dirs := [[0x61]] } :=
      .parseUnix [0x61, 0x2F]
    have h₂ : Built ⟨[0x2F], rfl⟩ (fun _ _ => True) { dirs := [DOTDOT], name := [0x62] } :=
      .parseUnix [0x2E, 0x2E, 0x2F, 0x62]
    refine ⟨{ dirs := [[0x61], DOTDOT], name := [0x62] },
      .perform (a := .append { dirs := [DOTDOT], name := [0x62] }) h₁ ?_ trivial rfl, rfl, ?_⟩
    · intro q hq
      cases hq
      exact h₂
    intro h
    obtain ⟨k, rest, hdirs, hrest⟩ := h.leading
    cases k with
    | zero =>
      rw [replicate_zero, nil_append] at hdirs
      exact hrest (hdirs ▸ by decide)
    | succ k => exact absurd (List.cons.inj hdirs).1 (by decide)
  · have h₁ : Built ⟨[0x2F], rfl⟩ (fun _ _ => True) { dirs := [DOTDOT] } :=
      .parseUnix [0x2E, 0x2E, 0x2F]
    refine ⟨{ device := [0x63], dirs := [DOTDOT], absolute := true },
      .perform (a := .setDevice [0x63]) h₁ (fun q hq => by cases hq) trivial rfl, rfl, rfl, ?_⟩
    intro h
    exact h.rooted rfl (by decide)

end Poco.Path
