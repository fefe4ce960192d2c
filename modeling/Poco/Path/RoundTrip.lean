import Poco.Path.Canonical
import Mathlib.Data.List.TakeWhile

/-!
# Paths as texts

A path that has been parsed is turned into a text and parsed again, in the Unix and in the Windows
style.  Its directories are canonical and have no separators in them, so that the same directories
are pushed again.  What may go wrong is the beginning of the text, where a component is read as
something else if it has lost what stood before it: a tilde as the home directory, a letter and a
colon as a drive.

## Main definitions

* `firstComponent`: the component that comes first in the text of a path, if nothing stands before
  it.
* `UnixForm`, `WindowsForm`: what is known of a path that has been parsed.

## Main results

* `unix_round_trip`, `windows_round_trip`: the texts that are parsed, built and parsed again with
  the same outcome.
-/

namespace Poco.Path

open List

variable {p : Path} {dir : Bytes}

/-! ### Pushing directories -/

theorem pushDirectory_eq (p : Path) (dir : Bytes) :
    p.pushDirectory dir = { p with dirs := (p.pushDirectory dir).dirs } := by
  obtain ⟨dirs, h, -⟩ := pushDirectory_cases p dir
  rw [h]

variable {d s : Bytes} {parts : List Bytes} {r : Path × Bytes}

theorem mem_pushDirectory (hd : d ∈ (p.pushDirectory dir).dirs) : d ∈ p.dirs ∨ d = dir := by
  obtain ⟨dirs, h, hdirs⟩ := pushDirectory_cases p dir
  rw [h] at hd
  rcases hdirs with hpre | rfl
  · exact .inl (hpre.subset hd)
  · simpa using hd

theorem head?_concat {α : Type*} {l : List α} {a x : α} (h : x ∈ (l ++ [a]).head?) :
    x ∈ l.head? ∨ l = [] ∧ x = a := by
  cases l with
  | nil => exact .inr ⟨rfl, (Option.some.inj h).symm⟩
  | cons y l => exact .inl h

theorem head?_pushDirectory (hd : d ∈ (p.pushDirectory dir).dirs.head?) :
    d ∈ p.dirs.head? ∨ p.dirs = [] ∧ d = dir := by
  obtain ⟨dirs, h, hdirs⟩ := pushDirectory_cases p dir
  rw [h] at hd
  rcases hdirs with ⟨rest, hrest⟩ | rfl
  · left
    rw [← hrest, head?_append]
    exact congrArg (Option.or · _) hd
  · exact head?_concat hd

theorem Canonical.pushDirectory_last (h : Canonical { p with dirs := init ++ [dir] }) :
    ({ p with dirs := init } : Path).pushDirectory dir = { p with dirs := init ++ [dir] } := by
  have hdir := h.named dir (mem_append_right _ (mem_singleton_self _))
  rw [Path.pushDirectory, if_pos hdir]
  by_cases hdot : dir = DOTDOT
  · subst hdot
    -- a parent at the end: the path is relative, and all directories are parents
    obtain ⟨k, hk⟩ := h.eq_replicate (by simp)
    have hinit : ∀ d ∈ init, d = DOTDOT := by
      intro d hd
      have hmem : d ∈ List.replicate k DOTDOT := by
        rw [← hk]
        exact mem_append_left _ hd
      exact eq_of_mem_replicate hmem
    have hrel : p.absolute = false := by
      by_contra habs
      exact h.rooted (by simpa using habs) (mem_append_right _ (mem_singleton_self _))
    rw [if_pos rfl, if_neg]
    · simp [hrel]
    · rintro ⟨hne, hlast⟩
      rcases eq_nil_or_concat' init with rfl | ⟨init, d, rfl⟩
      · exact hne rfl
      · refine hlast ?_
        rw [getLast?_concat, hinit d (mem_append_right _ (mem_singleton_self _))]
  · rw [if_neg hdot]

theorem Canonical.init {init rest : List Bytes}
    (h : Canonical { p with dirs := init ++ rest }) : Canonical { p with dirs := init } := by
  induction rest using List.reverseRecOn with
  | nil => exact h.congr (append_nil _).symm id
  | append_singleton rest d ih =>
    refine ih (h.dropLast.congr ?_ id)
    rw [← append_assoc, dropLast_concat]

theorem Canonical.foldl_push {push : Path → Bytes → Path} {dirs : List Bytes}
    (h : Canonical { p with dirs := dirs }) (hp : p.dirs = [])
    (hpush : ∀ init d, init ++ [d] <+: dirs →
      push { p with dirs := init } d = ({ p with dirs := init } : Path).pushDirectory d) :
    dirs.foldl push p = { p with dirs := dirs } := by
  induction dirs using List.reverseRecOn with
  | nil =>
    rw [foldl_nil, ← hp]
  | append_singleton dirs d ih =>
    have hpre : ∀ init e, init ++ [e] <+: dirs → init ++ [e] <+: dirs ++ [d] :=
      fun init e he => he.trans (prefix_append dirs [d])
    rw [foldl_append, ih h.init fun init e he => hpush init e (hpre init e he),
      foldl_cons, foldl_nil, hpush dirs d (prefix_refl _), h.pushDirectory_last]

def firstComponent (p : Path) : Bytes := p.dirs.head?.getD p.name

/-- The first component goes on to a separator, or to the end of the text. -/
theorem firstComponent_eq (hne : ∀ d ∈ p.dirs, d ≠ [])
    (htext : p.dirs.flatMap (fun dir => dir ++ [sep]) ++ p.name = c :: s) :
    ∃ part t, p.firstComponent = c :: part ∧ s = part ++ t ∧ (t = [] ∨ t.head? = some sep) := by
  rw [firstComponent]
  cases hdirs : p.dirs with
  | nil =>
    rw [hdirs] at htext
    exact ⟨s, [], htext, (append_nil s).symm, .inl rfl⟩
  | cons d dirs =>
    rw [hdirs, flatMap_cons, append_assoc, append_assoc] at htext
    cases d with
    | nil => exact absurd rfl (hne [] (hdirs ▸ mem_cons_self))
    | cons e part =>
      cases htext
      exact ⟨part, _, rfl, rfl, .inr rfl⟩

theorem firstComponent_of {P : Bytes → Prop} (hdirs : ∀ d ∈ p.dirs, P d) (hname : P p.name) :
    P p.firstComponent := by
  rw [firstComponent]
  cases h : p.dirs with
  | nil => exact hname
  | cons d dirs => exact hdirs d (h ▸ mem_cons_self)

/-! ### The Unix style -/

structure UnixForm (p : Path) : Prop where
  canonical : Canonical p
  dirs_free : ∀ d ∈ p.dirs, ∀ c ∈ d, (c == 0x2F) = false
  name_free : ∀ c ∈ p.name, (c == 0x2F) = false
  device_free : ∀ c ∈ p.device, (c == 0x2F) = false
  first : ∀ d ∈ p.dirs.head?, d.getLast? ≠ some 0x3A
  rooted : p.device ≠ [] → p.absolute = true
  others : p.node = [] ∧ p.version = []

theorem UnixForm.pushComponent (h : UnixForm p) {name : Bytes}
    (hname : ∀ c ∈ name, (c == 0x2F) = false) : UnixForm (p.pushComponent name) := by
  have hcan := h.canonical.pushComponent name
  rw [Path.pushComponent] at hcan ⊢
  split_ifs at hcan ⊢ with hdev
  · exact { h with
      canonical := hcan
      device_free := fun c hc => hname c (dropLast_subset _ hc)
      rooted := fun _ => rfl }
  rw [pushDirectory_eq] at hcan ⊢
  refine { h with canonical := hcan, dirs_free := ?_, first := ?_ }
  · intro d hd
    rcases mem_pushDirectory hd with hd | rfl
    · exact h.dirs_free d hd
    · exact hname
  · intro d hd
    rcases head?_pushDirectory hd with hd | ⟨hnil, rfl⟩
    · exact h.first d hd
    · exact fun hlast => hdev ⟨hnil, hlast⟩

theorem UnixForm.parseComponents (h : UnixForm p) (s : Bytes) :
    UnixForm (parseComponents p [] s) := by
  rw [parseComponents_eq_scan]
  obtain ⟨hfold, hname⟩ := Separated.scan_invariant h (fun _ _ hq => hq.pushComponent) s
  exact { hfold with canonical := hfold.canonical.congr rfl id, name_free := hname }

theorem unixForm_nil (absolute : Bool) : UnixForm { absolute := absolute } where
  canonical := canonical_nil rfl
  dirs_free := nofun
  name_free := nofun
  device_free := nofun
  first := nofun
  rooted := fun h => absurd rfl h
  others := ⟨rfl, rfl⟩

theorem Home.unixForm (home : Home) : UnixForm { dirs := home.dirs, absolute := true } := by
  obtain ⟨s, hs⟩ := home.parseUnix_path
  have h : UnixForm (parseUnix [] home.path) := by
    rw [hs]
    exact (unixForm_nil true).parseComponents s
  exact { unixForm_nil true with
    canonical := home.canonical
    dirs_free := h.dirs_free
    first := h.first }

theorem unixForm_parseUnix (home : Home) (s : Bytes) : UnixForm (parseUnix home.dirs s) := by
  cases s with
  | nil => exact unixForm_nil false
  | cons c s =>
    rw [parseUnix]
    split_ifs
    · exact (unixForm_nil true).parseComponents s
    · exact home.unixForm.parseComponents s
    · exact (unixForm_nil false).parseComponents (c :: s)

/-- The text after the device, the directories and the name, is parsed again. -/
theorem UnixForm.parseComponents_rest (h : UnixForm p) :
    Path.parseComponents { p with dirs := [], name := [] } []
      (p.dirs.flatMap (fun dir => dir ++ [0x2F]) ++ p.name) = p := by
  rw [parseComponents_eq_scan, Separated.scan_flatMap rfl h.dirs_free h.name_free]
  have hfold : p.dirs.foldl Path.pushComponent { p with dirs := [], name := [] } =
      { p with name := [] } := by
    have hcan : Canonical { p with name := [] } := h.canonical.congr rfl id
    refine Canonical.foldl_push hcan rfl ?_
    intro init d hinit
    rw [Path.pushComponent, if_neg]
    rintro ⟨hnil, hlast⟩
    obtain ⟨rest, hrest⟩ := hinit
    rw [show init = [] from hnil] at hrest
    refine h.first d ?_ hlast
    rw [← hrest]
    rfl
  rw [hfold]

theorem parseComponents_append {name : Bytes} (hname : ∀ c ∈ name, (c == 0x2F) = false) :
    parseComponents p [] (name ++ 0x2F :: s) = parseComponents (p.pushComponent name) [] s := by
  have hspl := splitOnP_append_cons_of_forall_mem hname 0x2F rfl s
  have hne := splitOnP_ne_nil (· == 0x2F) s
  simp [parseComponents_eq_scan, Separated.scan_eq, hspl, dropLast_cons_of_ne_nil hne]

/-- A path whose text begins with a tilde that is a component is read as the home directory. -/
theorem absolute_parseUnix_buildUnix (home : List Bytes) (hdev : p.device = [])
    (hrel : p.absolute = false) (htil : p.firstComponent = [0x7E]) :
    (parseUnix home p.buildUnix).absolute = true := by
  have htext : ∃ s, p.buildUnix = 0x7E :: s ∧ (s = [] ∨ s.head? = some 0x2F) := by
    rw [firstComponent] at htil
    cases hdirs : p.dirs with
    | nil =>
      rw [hdirs] at htil
      exact ⟨[], by simpa [buildUnix, hdev, hrel, hdirs] using htil, .inl rfl⟩
    | cons d dirs =>
      obtain rfl : d = [0x7E] := by simpa [hdirs] using htil
      exact ⟨0x2F :: (dirs.flatMap (fun dir => dir ++ [0x2F]) ++ p.name),
        by simp [buildUnix, hdev, hrel, hdirs], .inr rfl⟩
  obtain ⟨s, htext, hs⟩ := htext
  rw [htext, parseUnix, if_neg (by decide), if_pos ⟨rfl, hs⟩, absolute_parseComponents rfl]

/-- A path that has been parsed is parsed again, unless its text begins with a tilde that is a
component. -/
theorem UnixForm.parseUnix_buildUnix (h : UnixForm p) (home : List Bytes)
    (htil : p.absolute = false → p.firstComponent ≠ [0x7E]) : parseUnix home p.buildUnix = p := by
  have hrest := h.parseComponents_rest
  obtain ⟨node, device, name, version, dirs, absolute⟩ := p
  obtain ⟨rfl, rfl⟩ : node = [] ∧ version = [] := h.others
  by_cases hdev : device = []
  · subst hdev
    cases absolute with
    | true =>
      rw [buildUnix, if_neg (by simp), if_pos rfl, append_assoc, singleton_append,
        parseUnix, if_pos rfl]
      exact hrest
    | false =>
      rw [buildUnix, if_neg (by simp), if_neg (by simp), nil_append]
      dsimp only at hrest ⊢
      cases htext : dirs.flatMap (fun dir => dir ++ [0x2F]) ++ name with
      | nil =>
        rw [htext] at hrest
        exact hrest
      | cons c s =>
        rw [htext] at hrest
        obtain ⟨part, t, hfst, rfl, hend⟩ :=
          firstComponent_eq (fun d hd => (h.canonical.named d hd).1) htext
        have hfree := firstComponent_of h.dirs_free h.name_free
        rw [hfst] at hfree
        have hsl : c ≠ 0x2F := by simpa using hfree c mem_cons_self
        have hhome : ¬ (c = 0x7E ∧ (part ++ t = [] ∨ (part ++ t).head? = some 0x2F)) := by
          rintro ⟨rfl, haft⟩
          cases part with
          | nil => exact htil rfl hfst
          | cons e part =>
            have he : e ≠ 0x2F := by
              simpa using hfree e (mem_cons_of_mem _ mem_cons_self)
            rcases haft with hnil | hhead
            · cases hnil
            · exact he (Option.some.inj hhead)
        rw [parseUnix, if_neg hsl, if_neg hhome]
        exact hrest
  · have habs : absolute = true := h.rooted hdev
    subst habs
    have htext : buildUnix ⟨[], device, name, [], dirs, true⟩ = 0x2F :: (device ++ [0x3A] ++
        0x2F :: (dirs.flatMap (fun dir => dir ++ [0x2F]) ++ name)) := by
      rw [buildUnix, if_pos hdev]
      simp
    have hfree : ∀ c ∈ device ++ [0x3A], (c == 0x2F) = false :=
      forall_mem_append.mpr ⟨h.device_free, by decide⟩
    rw [htext, parseUnix, if_pos rfl, parseComponents_append hfree, Path.pushComponent,
      if_pos ⟨rfl, getLast?_concat⟩, dropLast_concat]
    exact hrest

/-- **A text in the Unix style is parsed, built and parsed again** with the same outcome, unless the
path is relative and the first component that it has left is a tilde. -/
theorem unix_round_trip (home : Home) (s : Bytes) :
    parseUnix home.dirs (parseUnix home.dirs s).buildUnix = parseUnix home.dirs s ↔
      ¬ ((parseUnix home.dirs s).absolute = false ∧
        (parseUnix home.dirs s).firstComponent = [0x7E]) := by
  have hform := unixForm_parseUnix home s
  generalize parseUnix home.dirs s = p at hform ⊢
  constructor
  · rintro heq ⟨hrel, htil⟩
    have hdev : p.device = [] := by
      by_contra hdev
      rw [hform.rooted hdev] at hrel
      cases hrel
    have habs := absolute_parseUnix_buildUnix home.dirs hdev hrel htil
    rw [heq, hrel] at habs
    cases habs
  · intro h
    exact hform.parseUnix_buildUnix home.dirs fun hrel htil => h ⟨hrel, htil⟩

/-- `~/a:/../b`, with the home directory `/h/`, and `a/~`. -/
theorem unix_round_trip_home :
    parseUnix (Home.dirs ⟨[0x2F, 0x68, 0x2F], rfl⟩) [0x2F, 0x68, 0x2F, 0x62] =
        parseUnix (Home.dirs ⟨[0x2F, 0x68, 0x2F], rfl⟩)
          [0x7E, 0x2F, 0x61, 0x3A, 0x2F, 0x2E, 0x2E, 0x2F, 0x62] ∧
      parseUnix (Home.dirs ⟨[0x2F, 0x68, 0x2F], rfl⟩) [0x61, 0x2F, 0x7E] =
        { dirs := [[0x61]], name := [0x7E] } :=
  ⟨(unix_round_trip ⟨[0x2F, 0x68, 0x2F], rfl⟩
      [0x7E, 0x2F, 0x61, 0x3A, 0x2F, 0x2E, 0x2E, 0x2F, 0x62]).mpr (by decide),
    (unix_round_trip ⟨[0x2F, 0x68, 0x2F], rfl⟩ [0x61, 0x2F, 0x7E]).mpr (by decide)⟩

/-- `./~` is the file `~`, and its text is the home directory. -/
theorem tilde_expanded :
    (parseUnix (Home.dirs ⟨[0x2F, 0x68, 0x2F], rfl⟩) [0x2E, 0x2F, 0x7E]) =
        { name := [0x7E] } ∧
      buildUnix { name := [0x7E] } = [0x7E] ∧
      parseUnix (Home.dirs ⟨[0x2F, 0x68, 0x2F], rfl⟩) [0x7E] =
        { dirs := [[0x68]], absolute := true } := by decide

/-! ### The Windows style -/

def buildWindows (p : Path) : Bytes :=
  (if p.node ≠ [] then [0x5C, 0x5C] ++ p.node ++ [0x5C]
    else if p.device ≠ [] then p.device ++ [0x3A, 0x5C]
    else if p.absolute then [0x5C] else [])
    ++ p.dirs.flatMap (fun dir => dir ++ [0x5C]) ++ p.name

structure WindowsForm (p : Path) : Prop where
  canonical : Canonical p
  dirs_free : ∀ d ∈ p.dirs, ∀ c ∈ d, isSeparator c = false
  name_free : ∀ c ∈ p.name, isSeparator c = false
  node_free : ∀ c ∈ p.node, isSeparator c = false
  node_rooted : p.node ≠ [] → p.absolute = true ∧ p.device = []
  node_share : p.node ≠ [] → p.dirs = [] → p.name = []
  device : p.device = [] ∨ p.absolute = true ∧ ∃ d, isDriveLetter d = true ∧ p.device = [d]
  version : p.version = []

theorem Root.parse (h : Root s r) : parseWindowsRoot s = .ok r := by
  cases h with
  | node hc hc' t => simp [parseWindowsRoot, hc, hc']
  | drive hd hc t =>
    have hlet : ∀ d, isDriveLetter d = true → isSeparator d = false := by decide
    simp [parseWindowsRoot, hlet _ hd, hd, hc]
  | @separator c hc t ht hcol =>
    rcases t with _ | ⟨e, _ | ⟨e', t⟩⟩ <;> simp_all [parseWindowsRoot]
  | relative ht hcol =>
    rcases s with _ | ⟨e, _ | ⟨e', t⟩⟩ <;> simp_all [parseWindowsRoot]

theorem WindowsForm.pushDirectory (h : WindowsForm p) (hname : p.name = [])
    (hdir : ∀ c ∈ dir, isSeparator c = false) : WindowsForm (p.pushDirectory dir) := by
  have hcan := h.canonical.pushDirectory dir
  rw [pushDirectory_eq] at hcan ⊢
  refine { h with canonical := hcan, dirs_free := ?_, node_share := fun _ _ => hname }
  intro d hd
  rcases mem_pushDirectory hd with hd | rfl
  · exact h.dirs_free d hd
  · exact hdir

theorem Root.windowsForm (h : Root s r) : WindowsForm r.1 ∧ r.1.name = [] := by
  have hnil : ∀ {node device : Bytes} {absolute : Bool},
      Canonical { node := node, device := device, absolute := absolute } := canonical_nil rfl
  cases h with
  | node hc hc' t =>
    refine ⟨⟨hnil, by simp, by simp, ?_, fun _ => ⟨rfl, rfl⟩, fun _ _ => rfl, .inl rfl, rfl⟩, rfl⟩
    intro c hmem
    simpa using mem_takeWhile_imp hmem
  | drive hd hc t =>
    exact ⟨⟨hnil, by simp, by simp, by simp, fun h => absurd rfl h, fun _ _ => rfl,
      .inr ⟨rfl, _, hd, rfl⟩, rfl⟩, rfl⟩
  | separator hc ht hcol | relative ht hcol =>
    exact ⟨⟨hnil, by simp, by simp, by simp, fun h => absurd rfl h, fun _ _ => rfl,
      .inl rfl, rfl⟩, rfl⟩

theorem makeDirectory_eq (hver : p.version = []) :
    p.makeDirectory = ({ p with name := [] } : Path).pushDirectory p.name := by
  rw [makeDirectory, Path.pushDirectory, Path.pushDirectory]
  split_ifs <;> simp only [hver]

theorem windowsForm_parseWindows (h : parseWindows s = .ok p) : WindowsForm p := by
  obtain ⟨r, hroot, rfl⟩ := parseWindows_ok h
  obtain ⟨⟨hfold, -⟩, hlast⟩ := Separated.scan_invariant (P := fun q => WindowsForm q ∧ q.name = [])
    hroot.windowsForm (fun q part hq hpart =>
      ⟨hq.1.pushDirectory hq.2 hpart, by rw [pushDirectory_eq, hq.2]⟩) r.2
  rw [parseWindowsComponents_eq_scan, parseWindowsShare]
  dsimp only
  split_ifs with hsha
  · rw [makeDirectory_eq (by exact hfold.version)]
    refine WindowsForm.pushDirectory ?_ rfl hlast
    exact { hfold with
      canonical := hfold.canonical.congr rfl id
      name_free := (by simp)
      node_share := fun _ _ => rfl }
  · refine { hfold with
      canonical := hfold.canonical.congr rfl id
      name_free := hlast
      node_share := ?_ }
    intro hnode hdirs
    by_contra hne
    exact hsha ⟨hnode, hdirs, hne⟩

section

variable (h : WindowsForm p)
include h

theorem WindowsForm.parseWindowsComponents_rest :
    Path.parseWindowsComponents { p with dirs := [], name := [] } []
      (p.dirs.flatMap (fun dir => dir ++ [0x5C]) ++ p.name) = p := by
  rw [parseWindowsComponents_eq_scan, Separated.scan_flatMap rfl h.dirs_free h.name_free]
  have hfold : p.dirs.foldl Path.pushDirectory { p with dirs := [], name := [] } =
      { p with name := [] } :=
    have hcan : Canonical { p with name := [] } := h.canonical.congr rfl id
    Canonical.foldl_push (p := { p with dirs := [], name := [] }) hcan rfl fun _ _ _ => rfl
  rw [hfold]

theorem WindowsForm.parseWindowsShare_eq : parseWindowsShare p = p := by
  rw [parseWindowsShare, if_neg]
  rintro ⟨hnode, hdirs, hname⟩
  exact hname (h.node_share hnode hdirs)

theorem WindowsForm.plain (hcol : p.firstComponent[1]? ≠ some 0x3A) :
    (∀ c ∈ (p.dirs.flatMap (fun dir => dir ++ [0x5C]) ++ p.name).head?, isSeparator c = false) ∧
      (p.dirs.flatMap (fun dir => dir ++ [0x5C]) ++ p.name)[1]? ≠ some 0x3A := by
  cases htext : p.dirs.flatMap (fun dir => dir ++ [0x5C]) ++ p.name with
  | nil => simp
  | cons c s =>
    obtain ⟨part, t, hfst, rfl, hend⟩ :=
      firstComponent_eq (fun d hd => (h.canonical.named d hd).1) htext
    have hfree := firstComponent_of h.dirs_free h.name_free
    rw [hfst] at hfree hcol
    refine ⟨?_, ?_⟩
    · intro x hx
      cases hx
      exact hfree c mem_cons_self
    cases part with
    | nil =>
      rcases hend with rfl | hhead
      · simp
      · rw [nil_append, getElem?_cons_succ, ← head?_eq_getElem?, hhead]
        decide
    | cons e part => exact hcol

theorem WindowsForm.root
    (hcol : p.node = [] → p.device = [] → p.firstComponent[1]? ≠ some 0x3A) :
    Root p.buildWindows ({ p with dirs := [], name := [] },
      p.dirs.flatMap (fun dir => dir ++ [0x5C]) ++ p.name) := by
  have hsep : isSeparator 0x5C = true := by decide
  rw [buildWindows]
  obtain ⟨node, device, name, version, dirs, absolute⟩ := p
  obtain rfl : version = [] := h.version
  dsimp only
  split_ifs with hnode hdev habs
  · obtain ⟨habs, hdev⟩ := h.node_rooted hnode
    dsimp only at habs hdev
    subst habs hdev
    have hroot := Root.node hsep hsep
      (node ++ 0x5C :: (dirs.flatMap (fun dir => dir ++ [0x5C]) ++ name))
    have hpos : ∀ c ∈ node, (!isSeparator c) = true := by
      intro c hc
      rw [h.node_free c hc]
      rfl
    rw [takeWhile_append_of_pos hpos, dropWhile_append_of_pos hpos] at hroot
    simpa [hsep] using hroot
  · obtain rfl : node = [] := not_not.mp hnode
    obtain ⟨rfl, d, hd, rfl⟩ := h.device.resolve_left hdev
    exact Root.drive hd hsep _
  · obtain rfl : node = [] := not_not.mp hnode
    obtain rfl : device = [] := not_not.mp hdev
    obtain rfl : absolute = true := habs
    obtain ⟨hhead, h2nd⟩ := h.plain (hcol rfl rfl)
    exact Root.separator hsep hhead h2nd
  · obtain rfl : node = [] := not_not.mp hnode
    obtain rfl : device = [] := not_not.mp hdev
    obtain rfl : absolute = false := by simpa using habs
    obtain ⟨hhead, h2nd⟩ := h.plain (hcol rfl rfl)
    exact Root.relative hhead h2nd

/-- A path that has been parsed is parsed again, unless its text begins with a component that has
a colon in the place of that of a drive. -/
theorem WindowsForm.parseWindows_buildWindows
    (hcol : p.node = [] → p.device = [] → p.firstComponent[1]? ≠ some 0x3A) :
    parseWindows p.buildWindows = .ok p := by
  rw [parseWindows, (h.root hcol).parse]
  change Except.ok (parseWindowsShare _) = _
  rw [h.parseWindowsComponents_rest, h.parseWindowsShare_eq]

end

theorem parseWindowsComponents_eq (p : Path) (name s : Bytes) :
    ∃ dirs name', parseWindowsComponents p name s = { p with dirs := dirs, name := name' } := by
  induction s generalizing p name with
  | nil => exact ⟨p.dirs, name, rfl⟩
  | cons c s ih =>
    rw [parseWindowsComponents]
    split_ifs
    · rw [pushDirectory_eq]
      exact ih _ []
    · exact ih p _

theorem device_parseWindowsShare (p : Path) : (parseWindowsShare p).device = p.device := by
  rw [parseWindowsShare]
  split_ifs
  · rw [makeDirectory, pushDirectory_eq]
  · rfl

/-- A colon in the place of that of a drive is read as one, or not accepted. -/
theorem WindowsForm.parseWindows_ne (h : WindowsForm p) (hnode : p.node = []) (hdev : p.device = [])
    (hcol : p.firstComponent[1]? = some 0x3A) : parseWindows p.buildWindows ≠ .ok p := by
  intro hparse
  obtain ⟨r, hroot, hp⟩ := parseWindows_ok hparse
  have hrdev : r.1.device = [] := by
    obtain ⟨dirs, name, heq⟩ := parseWindowsComponents_eq r.1 [] r.2
    rwa [hp, device_parseWindowsShare, heq] at hdev
  have hfree := firstComponent_of h.dirs_free h.name_free
  -- the text begins with a byte that is no separator, and a colon
  obtain ⟨c, t, hc, htext⟩ : ∃ c t, isSeparator c = false ∧
      p.dirs.flatMap (fun dir => dir ++ [0x5C]) ++ p.name = c :: 0x3A :: t := by
    cases htext : p.dirs.flatMap (fun dir => dir ++ [0x5C]) ++ p.name with
    | nil =>
      obtain ⟨hdirs, hname⟩ := append_eq_nil_iff.mp htext
      cases hds : p.dirs with
      | nil => simp [firstComponent, hds, hname] at hcol
      | cons d ds => simp [hds] at hdirs
    | cons c s =>
      obtain ⟨part, t, hfst, rfl, -⟩ :=
        firstComponent_eq (fun d hd => (h.canonical.named d hd).1) htext
      rw [hfst] at hcol hfree
      cases part with
      | nil => cases hcol
      | cons e part =>
        cases hcol
        exact ⟨c, part ++ t, hfree c mem_cons_self, rfl⟩
  rw [buildWindows, if_neg (not_not.mpr hnode), if_neg (not_not.mpr hdev), append_assoc, htext]
    at hroot
  split_ifs at hroot
  · cases hroot with
    | node _ hc' => simp [hc] at hc'
    | drive hd => revert hd; decide
    | separator _ _ hcol => exact hcol rfl
    | relative ht => exact absurd (ht 0x5C rfl) (by decide)
  · cases hroot with
    | node hc' => simp [hc] at hc'
    | drive => cases hrdev
    | separator hc' => simp [hc] at hc'
    | relative _ hcol => exact hcol rfl

/-- **A text in the Windows style that is parsed is built and parsed again** with the same outcome,
unless the path has no node and no device and the first component that it has left has a colon in
the place of that of a drive. -/
theorem windows_round_trip (s : Bytes) (p : Path) (h : parseWindows s = .ok p) :
    parseWindows p.buildWindows = .ok p ↔
      ¬ (p.node = [] ∧ p.device = [] ∧ p.firstComponent[1]? = some 0x3A) := by
  have hform := windowsForm_parseWindows h
  constructor
  · rintro heq ⟨hnode, hdev, hcol⟩
    exact hform.parseWindows_ne hnode hdev hcol heq
  · intro h
    exact hform.parseWindows_buildWindows fun hnode hdev hcol => h ⟨hnode, hdev, hcol⟩

/-- A node, and after it a directory that looks like a drive: `\\n/a:/b`; and such a directory
further on: `a\c:\x`. -/
theorem windows_round_trip_node : (∃ p,
    parseWindows [0x5C, 0x5C, 0x6E, 0x2F, 0x61, 0x3A, 0x2F, 0x62] = .ok p ∧
      parseWindows p.buildWindows = .ok p) ∧
    ∃ p, parseWindows [0x61, 0x5C, 0x63, 0x3A, 0x5C, 0x78] = .ok p ∧
      parseWindows p.buildWindows = .ok p :=
  ⟨⟨{ node := [0x6E], dirs := [[0x61, 0x3A]], name := [0x62], absolute := true }, rfl,
      (windows_round_trip [0x5C, 0x5C, 0x6E, 0x2F, 0x61, 0x3A, 0x2F, 0x62] _ rfl).mpr (by decide)⟩,
    { dirs := [[0x61], [0x63, 0x3A]], name := [0x78] }, rfl,
      (windows_round_trip [0x61, 0x5C, 0x63, 0x3A, 0x5C, 0x78] _ rfl).mpr (by decide)⟩

/-- `.\c:\x` is relative, and its text is absolute; `\.\c:` is absolute, and its text is not
accepted. -/
theorem drive_read :
    (parseWindows [0x2E, 0x5C, 0x63, 0x3A, 0x5C, 0x78] =
        .ok { dirs := [[0x63, 0x3A]], name := [0x78] } ∧
      buildWindows { dirs := [[0x63, 0x3A]], name := [0x78] } = [0x63, 0x3A, 0x5C, 0x78] ∧
      parseWindows [0x63, 0x3A, 0x5C, 0x78] =
        .ok { device := [0x63], name := [0x78], absolute := true }) ∧
    parseWindows [0x5C, 0x2E, 0x5C, 0x63, 0x3A] = .ok { name := [0x63, 0x3A], absolute := true } ∧
      buildWindows { name := [0x63, 0x3A], absolute := true } = [0x5C, 0x63, 0x3A] ∧
      parseWindows [0x5C, 0x63, 0x3A] = .error ⟨[0x5C, 0x63, 0x3A]⟩ := by decide

end Poco.Path
