import Poco.Ascii
import Mathlib.Data.List.Infix
import Mathlib.Data.List.Nodup

/-!
# Command line options

`Option`, `OptionSet` and `OptionProcessor` of the `Util` library.  An argument of the command
line selects an option by its short name, by its full name or by the beginning of its full
name, and the option then extracts its own argument from the same text, which it matches
again.  An option whose argument is still missing is deferred: it is looked up by its full
name when the next argument comes.

The two matchings differ.  An option selected by its short name first tries to read the text
as the beginning of its full name, so `-fi` is `file` without an argument and not `f` with the
argument `i`; and the lookup by a full name gives up as ambiguous when two longer names come
before it.

## Main definitions

* `Opt`, `OptionSet`, `OptionProcessor`: the classes.  `addOption` asserts that full names are not
  empty and refuses one that is there already.
* `spellings`: an option with its argument: `-sv`, `-s v`, `--f=v`, `--f:v`, `--f v`.
* `Readable`: what it takes for all spellings to be read as they are meant: at most one of the
  options before this one has a longer full name that begins like this one, the short name with its
  argument is not the beginning of the full name, and the short name does not begin with a dash.
* `OptionSet.meant`: the option a name is the full name of, or else the only one it abbreviates.

## Main results

* `getOption_full`, `getOption_short`: the lookup by a full name succeeds if at most one longer name
  precedes it, and by a short name if no other option matches it.
* `getOption_eq_meant_iff`: the order of declaration matters only if an option has the full name
  and two others have longer names that begin with it.
* `spellings_agree_iff`: all spellings of an option agree if and only if they can be read as meant.
-/

namespace Poco.Util

open List

/-! ### Options -/

inductive OptionExc
  | missingArgument (msg : Bytes)
  | unexpectedArgument (msg : Bytes)
  | unknownOption (msg : Bytes)
  | ambiguousOption (msg : Bytes)
  | incompatibleOptions (msg : Bytes)
  | duplicateOption (msg : Bytes)
  | emptyOption
deriving DecidableEq

structure Opt where
  shortName : Bytes
  fullName : Bytes
  repeatable : Bool
  argName : Bytes
  argRequired : Bool
  group : Bytes
deriving DecidableEq

def isSeparator (c : UInt8) : Bool := c == 0x3A || c == 0x3D

def namePart (option : Bytes) : Bytes := option.takeWhile fun c => !isSeparator c

def argPart (option : Bytes) : Option Bytes :=
  match option.dropWhile fun c => !isSeparator c with
  | [] => none
  | _ :: arg => some arg

namespace Opt

variable (o : Opt)

def takesArgument : Bool := !o.argName.isEmpty

/-- `icompare(option, 0, len, _fullName, 0, len) == 0`: the name is the beginning of the full
name, ignoring case. -/
def matchesName (name : Bytes) : Bool :=
  icompare name (o.fullName.take name.length) == 0

def matchesShort (option : Bytes) : Bool :=
  !option.isEmpty && !o.shortName.isEmpty && o.shortName.isPrefixOf option

def matchesFull (option : Bytes) : Bool :=
  (namePart option).length == o.fullName.length && o.matchesName (namePart option)

def matchesPartial (option : Bytes) : Bool :=
  !option.isEmpty && o.matchesName (namePart option)

def requires : Bytes := [0x20, 0x72, 0x65, 0x71, 0x75, 0x69, 0x72, 0x65, 0x73, 0x20]

def process (option : Bytes) : Except OptionExc Bytes :=
  if o.matchesName (namePart option) then
    if o.takesArgument then
      match argPart option with
      | none =>
        if o.argRequired then .error (.missingArgument (o.fullName ++ requires ++ o.argName))
        else .ok []
      | some arg => .ok arg
    else
      match argPart option with
      | none => .ok []
      | some _ => .error (.unexpectedArgument option)
  else if !o.shortName.isEmpty && o.shortName.isPrefixOf option then
    if o.takesArgument then
      if o.argRequired && option.length == o.shortName.length then
        .error (.missingArgument (o.shortName ++ requires ++ o.argName))
      else .ok (option.drop o.shortName.length)
    else if option.length != o.shortName.length then .error (.unexpectedArgument option)
    else .ok []
  else .error (.unknownOption option)

end Opt

/-! ### Sets of options -/

structure OptionSet where
  options : List Opt
  named : ∀ o ∈ options, o.fullName ≠ []
  nodup : (options.map Opt.fullName).Nodup

namespace OptionSet

def isMatch (name : Bytes) (matchShort : Bool) (o : Opt) : Bool :=
  (matchShort && o.matchesShort name) || (!matchShort && o.matchesPartial name)

def getOptionLoop (name : Bytes) (matchShort : Bool) :
    List Opt → Option Opt → Except OptionExc (Option Opt)
  | [], found => .ok found
  | o :: os, found =>
    if isMatch name matchShort o then
      if !matchShort && o.matchesFull name then .ok (some o)
      else
        match found with
        | none => getOptionLoop name matchShort os (some o)
        | some _ => .error (.ambiguousOption name)
    else getOptionLoop name matchShort os found

def getOption (s : OptionSet) (name : Bytes) (matchShort : Bool) : Except OptionExc Opt :=
  match getOptionLoop name matchShort s.options none with
  | .error e => .error e
  | .ok none => .error (.unknownOption name)
  | .ok (some o) => .ok o

end OptionSet

/-! ### Processing a command line -/

structure OptionProcessor where
  options : OptionSet
  unixStyle : Bool
  ignore : Bool
  groups : List Bytes
  specifiedOptions : List Bytes
  deferredOption : Bytes

/-- What `process` reports: its result, and the name and argument of the option. -/
structure Report where
  /-- The argument of the command line was an option or part of one. -/
  handled : Bool
  optionName : Bytes
  optionArg : Bytes
deriving DecidableEq

namespace OptionProcessor

def fresh (options : OptionSet) : OptionProcessor := ⟨options, true, false, [], [], []⟩

/-- `processCommon` when the argument of a deferred option has come. -/
def processDeferred (p : OptionProcessor) (optionStr : Bytes) :
    OptionProcessor × Except OptionExc Report :=
  match p.options.getOption p.deferredOption false with
  | .error e => (p, .error e)
  | .ok o =>
    ({ p with deferredOption := [] },
      (o.process (p.deferredOption ++ 0x3D :: optionStr)).map fun arg => ⟨true, o.fullName, arg⟩)

/-- The end of `processCommon`: the option is deferred or extracts its argument. -/
def extract (p : OptionProcessor) (o : Opt) (optionStr : Bytes) (isShort : Bool) :
    OptionProcessor × Except OptionExc Report :=
  if o.argRequired && ((!isShort && (argPart optionStr).isNone) ||
      (isShort && optionStr.length == o.shortName.length)) then
    ({ p with deferredOption := o.fullName }, .ok ⟨true, [], []⟩)
  else (p, (o.process optionStr).map fun arg => ⟨true, o.fullName, arg⟩)

def processCommon (p : OptionProcessor) (optionStr : Bytes) (isShort : Bool) :
    OptionProcessor × Except OptionExc Report :=
  if !p.deferredOption.isEmpty then p.processDeferred optionStr
  else if optionStr.isEmpty then (p, .error .emptyOption)
  else
    match p.options.getOption optionStr isShort with
    | .error e => (p, .error e)
    | .ok o =>
      -- options of one group exclude each other
      if !o.group.isEmpty && p.groups.contains o.group then
        (p, .error (.incompatibleOptions o.fullName))
      else
        let p := if o.group.isEmpty then p else { p with groups := o.group :: p.groups }
        if p.specifiedOptions.contains o.fullName && !o.repeatable then
          (p, .error (.duplicateOption o.fullName))
        else
          { p with specifiedOptions := o.fullName :: p.specifiedOptions }.extract o optionStr
            isShort

def processUnix (p : OptionProcessor) :
    Bytes → OptionProcessor × Except OptionExc Report
  | [] => (p, .ok ⟨false, [], []⟩)
  | c :: cs =>
    if c = 0x2D then
      match cs with
      | [] => (p, .ok ⟨false, [], []⟩)
      | d :: ds =>
        if d = 0x2D then
          match ds with
          | [] => ({ p with ignore := true }, .ok ⟨true, [], []⟩)
          | _ => p.processCommon ds false
        else p.processCommon (d :: ds) true
    else (p, .ok ⟨false, [], []⟩)

def processDefault (p : OptionProcessor) :
    Bytes → OptionProcessor × Except OptionExc Report
  | [] => (p, .ok ⟨false, [], []⟩)
  | c :: cs => if c = 0x2F then p.processCommon cs false else (p, .ok ⟨false, [], []⟩)

def process (p : OptionProcessor) (argument : Bytes) :
    OptionProcessor × Except OptionExc Report :=
  if p.ignore then (p, .ok ⟨false, [], []⟩)
  else if !p.deferredOption.isEmpty then p.processCommon argument false
  else if p.unixStyle then p.processUnix argument
  else p.processDefault argument

def processAll (p : OptionProcessor) : List Bytes → Except OptionExc (List Report)
  | [] => .ok []
  | argument :: arguments =>
    match p.process argument with
    | (_, .error e) => .error e
    | (p, .ok r) => (p.processAll arguments).map (r :: ·)

end OptionProcessor

/-! ### Spellings of an option -/

def spellings (o : Opt) (v : Bytes) : List (List Bytes) :=
  [[0x2D :: (o.shortName ++ v)],
    [0x2D :: o.shortName, v],
    [0x2D :: 0x2D :: (o.fullName ++ 0x3D :: v)],
    [0x2D :: 0x2D :: (o.fullName ++ 0x3A :: v)],
    [0x2D :: 0x2D :: o.fullName, v]]

/-- A new processor handles all arguments of a command line and reports this option and
argument at its end. -/
def Reports (s : OptionSet) (line : List Bytes) (name arg : Bytes) : Prop :=
  ∃ rs, (OptionProcessor.fresh s).processAll line = .ok rs ∧ (∀ r ∈ rs, r.handled = true) ∧
    rs.getLast? = some ⟨true, name, arg⟩

/-- Sets in which an option is known by its names: full names differ ignoring case, and no short
name is the beginning of another one. -/
structure OptionSet.Distinct (s : OptionSet) : Prop where
  fullName : s.options.Pairwise fun a b => icompare a.fullName b.fullName ≠ 0
  shortName : s.options.Pairwise fun a b => a.shortName ≠ [] → b.shortName ≠ [] →
    ¬a.shortName <+: b.shortName ∧ ¬b.shortName <+: a.shortName

/-- Options with a required argument and with names that contain no separators. -/
structure Opt.Plain (o : Opt) : Prop where
  takesArgument : o.takesArgument = true
  argRequired : o.argRequired = true
  fullName : ∀ c ∈ o.fullName, isSeparator c = false
  shortName : ∀ c ∈ o.shortName, isSeparator c = false
  ne_nil : o.shortName ≠ []

structure Readable (s : OptionSet) (o : Opt) (v : Bytes) : Prop where
  few : ∃ before after, s.options = before ++ o :: after ∧
    (before.filter fun a => a.matchesName o.fullName).length ≤ 1
  apart : o.matchesName (namePart (o.shortName ++ v)) = false
  noDash : o.shortName.head? ≠ some 0x2D

/-! ### The parts of a text -/

variable {name : Bytes}

theorem namePart_append (h : ∀ c ∈ name, isSeparator c = false) (t : Bytes) :
    namePart (name ++ t) = name ++ namePart t := by
  refine takeWhile_append_of_pos fun c hc => ?_
  rw [h c hc]
  rfl

theorem argPart_append (h : ∀ c ∈ name, isSeparator c = false) (t : Bytes) :
    argPart (name ++ t) = argPart t := by
  have hdrop : (name ++ t).dropWhile (fun c => !isSeparator c) =
      t.dropWhile fun c => !isSeparator c := by
    refine dropWhile_append_of_pos fun c hc => ?_
    rw [h c hc]
    rfl
  rw [argPart, hdrop]
  rfl

theorem namePart_cons (hc : isSeparator c = true) (t : Bytes) : namePart (c :: t) = [] :=
  takeWhile_cons_of_neg (by rw [hc]; decide)

theorem argPart_cons (hc : isSeparator c = true) (t : Bytes) : argPart (c :: t) = some t := by
  rw [argPart, dropWhile_cons_of_neg (by rw [hc]; decide)]

theorem Opt.Plain.namePart_fullName {o : Opt} (ho : o.Plain) :
    namePart o.fullName = o.fullName := by
  refine takeWhile_eq_self_iff.mpr fun c hc => ?_
  rw [ho.fullName c hc]
  rfl

theorem Opt.matchesName_fullName (o : Opt) : o.matchesName o.fullName = true := by
  rw [matchesName, take_length, beq_iff_eq, icompare_eq_zero_iff]

/-! ### Looking up options -/

namespace OptionSet

/-- The loop over options that it does not stop at: more than one match is an error. -/
theorem getOptionLoop_append {found : Option Opt}
    (h : ∀ a ∈ os, (!matchShort && a.matchesFull name) = false) :
    getOptionLoop name matchShort (os ++ rest) found =
      match found.toList ++ os.filter (isMatch name matchShort) with
      | [] => getOptionLoop name matchShort rest none
      | [o] => getOptionLoop name matchShort rest (some o)
      | _ :: _ :: _ => .error (.ambiguousOption name) := by
  induction os generalizing found with
  | nil =>
    cases found with
    | none | some => rfl
  | cons a os ih =>
    obtain ⟨ha, hos⟩ := forall_mem_cons.mp h
    rw [cons_append, getOptionLoop.eq_def]
    dsimp only
    rw [ha, filter_cons]
    cases isMatch name matchShort a with
    | false => exact ih hos
    | true =>
      cases found with
      | none => exact ih hos
      | some b => rfl

variable {s : OptionSet} {o : Opt} {v : Bytes} {before after : List Opt}

theorem getOption_split (hspl : s.options = before ++ o :: after) (ho : o.matchesFull name = true)
    (hbef : ∀ a ∈ before, a.matchesFull name = false) :
    s.getOption name false = if (before.filter (isMatch name false)).length ≤ 1 then .ok o
      else .error (.ambiguousOption name) := by
  have hmat : isMatch name false o = true := by
    have hne := s.named o (by simp [hspl])
    rw [Opt.matchesFull, Bool.and_eq_true, beq_iff_eq] at ho
    cases name with
    | nil => exact absurd ho.1.symm (by simpa [namePart] using hne)
    | cons c cs => simp [isMatch, Opt.matchesPartial, ho.2]
  have hstop : ∀ found, getOptionLoop name false (o :: after) found = .ok (some o) := by
    intro found
    rw [getOptionLoop.eq_def]
    simp only [hmat, ho]
    rfl
  rw [getOption, hspl, getOptionLoop_append (by simpa using hbef)]
  match before.filter (isMatch name false) with
  | [] => simp [hstop]
  | [a] => simp [hstop]
  | a :: b :: os => simp

theorem getOption_full (hs : s.Distinct) (hspl : s.options = before ++ o :: after)
    (hname : namePart name = o.fullName) (hne : name ≠ []) : s.getOption name false =
      if (before.filter fun a => a.matchesName o.fullName).length ≤ 1 then .ok o
      else .error (.ambiguousOption name) := by
  have hdis := hs.fullName
  rw [hspl] at hdis
  have hmat : before.filter (isMatch name false) =
      before.filter fun a => a.matchesName o.fullName := by
    refine filter_congr fun a _ => ?_
    cases name with
    | nil => exact absurd rfl hne
    | cons c cs => simp [isMatch, Opt.matchesPartial, hname]
  rw [getOption_split hspl, hmat]
  · rw [Opt.matchesFull, hname, o.matchesName_fullName, beq_self_eq_true]
    rfl
  -- a name of this length that begins like it is the same name
  intro a ha
  by_contra h
  rw [Bool.not_eq_false, Opt.matchesFull, hname, Bool.and_eq_true, beq_iff_eq, Opt.matchesName,
    beq_iff_eq] at h
  rw [h.1, take_length, icompare_eq_zero_iff] at h
  refine (pairwise_append.mp hdis).2.2 a ha o mem_cons_self ?_
  exact icompare_eq_zero_iff.mpr h.2.symm

theorem getOption_of_readable (hs : s.Distinct) (ho : Readable s o v)
    (hname : namePart name = o.fullName) (hne : name ≠ []) : s.getOption name false = .ok o := by
  obtain ⟨before, after, hspl, hfew⟩ := ho.few
  rw [getOption_full hs hspl hname hne, if_pos hfew]

theorem matchesName_of_getOption (h : s.getOption name false = .ok o) :
    o.matchesName (namePart name) = true := by
  have hloop : ∀ {os : List Opt} {found : Option Opt},
      (∀ a ∈ found, a.matchesName (namePart name) = true) →
      ∀ r, getOptionLoop name false os found = .ok r → ∀ a ∈ r, a.matchesName (namePart name) := by
    intro os
    induction os with
    | nil =>
      intro found hfound r hr
      cases hr
      exact hfound
    | cons a os ih =>
      intro found hfound r hr
      rw [getOptionLoop.eq_def] at hr
      dsimp only at hr
      split_ifs at hr with hmat hfull
      · cases hr
        simp_all [Opt.matchesFull]
      · cases found with
        | none =>
          refine ih ?_ r hr
          simp_all [isMatch, Opt.matchesPartial]
        | some b => cases hr
      · exact ih hfound r hr
  rw [getOption] at h
  split at h
  · cases h
  · cases h
  · next hr =>
    cases h
    exact hloop (by simp) _ hr o rfl

theorem getOption_short (hs : s.Distinct) (ho : o ∈ s.options) (hne : o.shortName ≠ [])
    (t : Bytes) : s.getOption (o.shortName ++ t) true = .ok o := by
  obtain ⟨before, after, hspl⟩ := append_of_mem ho
  have hdis := hs.shortName
  rw [hspl] at hdis
  obtain ⟨-, hrig, hleft⟩ := pairwise_append.mp hdis
  have hself : isMatch (o.shortName ++ t) true o = true := by
    simp [isMatch, Opt.matchesShort, hne]
  -- two short names that begin one text are comparable
  have hoth : ∀ a : Opt, (o.shortName ≠ [] → a.shortName ≠ [] →
      ¬a.shortName <+: o.shortName ∧ ¬o.shortName <+: a.shortName) →
      isMatch (o.shortName ++ t) true a = false := by
    intro a ha
    by_contra h
    simp only [isMatch, Opt.matchesShort, Bool.true_and, Bool.not_true, Bool.false_and,
      Bool.or_false, Bool.not_eq_false, Bool.and_eq_true, isPrefixOf_iff_prefix] at h
    have hsh : a.shortName ≠ [] := by
      intro hnil
      rw [hnil] at h
      exact absurd h.1.2 (by decide)
    obtain ⟨h1, h2⟩ := ha hne hsh
    rcases prefix_or_prefix_of_prefix h.2 (prefix_append o.shortName t) with hp | hp
    · exact h1 hp
    · exact h2 hp
  have hbef : ∀ a ∈ before, isMatch (o.shortName ++ t) true a = false := fun a ha =>
    hoth a fun h1 h2 => hleft a ha o mem_cons_self h2 h1
  have haft : ∀ a ∈ after, isMatch (o.shortName ++ t) true a = false := fun a ha =>
    hoth a fun h1 h2 => ((pairwise_cons.mp hrig).1 a ha h1 h2).symm
  have hloop : getOptionLoop (o.shortName ++ t) true s.options none = .ok (some o) := by
    have hfil : s.options.filter (isMatch (o.shortName ++ t) true) = [o] := by
      rw [hspl, filter_append, filter_cons_of_pos hself,
        filter_eq_nil_iff.mpr (by simpa using hbef),
        filter_eq_nil_iff.mpr (by simpa using haft)]
      rfl
    rw [← append_nil s.options, getOptionLoop_append (fun _ _ => rfl), hfil]
    rfl
  rw [getOption, hloop]

end OptionSet

/-! ### The option that is meant -/

/-- What stands before the separator is the full name, ignoring case. -/
def Opt.isNamed (o : Opt) (name : Bytes) : Bool :=
  (namePart name).map Ascii.toLower == o.fullName.map Ascii.toLower

/-- What stands before the separator is the beginning of the full name, ignoring case. -/
def Opt.isAbbreviated (o : Opt) (name : Bytes) : Bool :=
  !name.isEmpty && ((namePart name).map Ascii.toLower).isPrefixOf (o.fullName.map Ascii.toLower)

def OptionSet.meant (s : OptionSet) (name : Bytes) : Except OptionExc Opt :=
  match s.options.find? (·.isNamed name), s.options.filter (·.isAbbreviated name) with
  | some o, _ => .ok o
  | none, [] => .error (.unknownOption name)
  | none, [o] => .ok o
  | none, _ :: _ :: _ => .error (.ambiguousOption name)

theorem Opt.matchesFull_eq (o : Opt) : o.matchesFull name = o.isNamed name := by
  rw [Bool.eq_iff_iff, matchesFull, isNamed, Bool.and_eq_true, beq_iff_eq, beq_iff_eq, matchesName,
    beq_iff_eq, icompare_eq_zero_iff]
  constructor
  · rintro ⟨hlen, h⟩
    rwa [hlen, take_length] at h
  · intro h
    have hlen : (namePart name).length = o.fullName.length := by
      simpa using congrArg List.length h
    rw [hlen, take_length]
    exact ⟨rfl, h⟩

theorem isMatch_eq (o : Opt) : OptionSet.isMatch name false o = o.isAbbreviated name := by
  have hpre : o.matchesName (namePart name) =
      ((namePart name).map Ascii.toLower).isPrefixOf (o.fullName.map Ascii.toLower) := by
    rw [Bool.eq_iff_iff, Opt.matchesName, beq_iff_eq, icompare_eq_zero_iff, isPrefixOf_iff_prefix,
      prefix_iff_eq_take, length_map, map_take]
  simp [OptionSet.isMatch, Opt.matchesPartial, Opt.isAbbreviated, hpre]

namespace OptionSet

variable {s : OptionSet}

def reorder (s : OptionSet) (os : List Opt) (h : os.Perm s.options) : OptionSet :=
  ⟨os, fun o ho => s.named o (h.subset ho), (h.map _).nodup_iff.mpr s.nodup⟩

/-- Without an option of this full name the order does not matter. -/
theorem getOption_eq_meant (hnone : ∀ o ∈ s.options, o.isNamed name = false) {s' : OptionSet}
    (h : s'.options.Perm s.options) : s'.getOption name false = s.meant name := by
  have hfind : s.options.find? (·.isNamed name) = none := by
    simpa using hnone
  have hperm := h.filter (isMatch name false)
  rw [getOption, meant, hfind, ← append_nil s'.options, getOptionLoop_append fun a ha => ?_,
    ← filter_congr fun a _ => isMatch_eq a]
  · match hos : s.options.filter (isMatch name false) with
    | [] =>
      rw [hos, perm_nil] at hperm
      simp [hperm, getOptionLoop]
    | [o] =>
      rw [hos, perm_singleton] at hperm
      simp [hperm, getOptionLoop]
    | a :: b :: os =>
      obtain ⟨c, d, os', heq⟩ : ∃ c d os', s'.options.filter (isMatch name false) =
        c :: d :: os' := by
        have hlen := hperm.length_eq
        rw [hos] at hlen
        match hos' : s'.options.filter (isMatch name false), hlen with
        | c :: d :: os', _ => exact ⟨c, d, os', rfl⟩
      simp [heq]
  · rw [Opt.matchesFull_eq, hnone a (h.subset ha)]
    rfl

theorem getOption_eq_meant_iff
    (hs : s.options.Pairwise fun a b => icompare a.fullName b.fullName ≠ 0) (name : Bytes) :
    (∀ s' : OptionSet, s'.options.Perm s.options → s'.getOption name false = s.meant name) ↔
      ((∃ o ∈ s.options, o.isNamed name = true) →
        (s.options.filter fun o => o.isAbbreviated name && !o.isNamed name).length ≤ 1) := by
  by_cases hex : ∃ o ∈ s.options, o.isNamed name = true
  swap
  · refine iff_of_true (fun s' h => getOption_eq_meant ?_ h) fun h => absurd h hex
    simpa using hex
  obtain ⟨o, ho, hnam⟩ := hex
  have hnd : (s.options.map fun a => a.fullName.map Ascii.toLower).Nodup :=
    pairwise_map.mpr (hs.imp fun h heq => h (icompare_eq_zero_iff.mpr heq))
  have huni : ∀ a ∈ s.options, a.isNamed name = true → a = o := fun a ha h =>
    inj_on_of_nodup_map hnd ha ho ((beq_iff_eq.mp h).symm.trans (beq_iff_eq.mp hnam))
  have hfind : ∀ {os : List Opt}, os.Perm s.options → os.find? (·.isNamed name) = some o := by
    intro os h
    cases hf : os.find? (·.isNamed name) with
    | none => exact absurd hnam (find?_eq_none.mp hf o (h.symm.subset ho))
    | some a =>
      obtain ⟨ha, -⟩ := find?_eq_some_iff_append.mp hf
      rw [huni a (h.subset (mem_of_find?_eq_some hf)) ha]
  rw [meant, hfind (.refl _)]
  constructor
  · -- the longer names come first
    intro h _
    have hperm := perm_append_comm.trans (filter_append_perm (·.isNamed name) s.options)
    have hget := h (s.reorder _ hperm) hperm
    cases hf : s.options.filter (·.isNamed name) with
    | nil => exact absurd hnam (by simpa using filter_eq_nil_iff.mp hf o ho)
    | cons a after =>
      have ha := mem_filter.mp (hf ▸ mem_cons_self : a ∈ s.options.filter (·.isNamed name))
      obtain rfl := huni a ha.1 ha.2
      rw [getOption_split (congrArg _ hf) (a.matchesFull_eq.trans hnam) fun b hb => ?_,
        filter_congr fun b _ => isMatch_eq b, filter_filter] at hget
      · by_contra hmany
        rw [if_neg hmany] at hget
        cases hget
      · rw [b.matchesFull_eq]
        simpa using (mem_filter.mp hb).2
  · intro h s' hperm
    obtain ⟨-, before, after, hspl, hbef⟩ := find?_eq_some_iff_append.mp (hfind hperm)
    rw [getOption_split hspl (o.matchesFull_eq.trans hnam) fun b hb => ?_, if_pos]
    · refine le_trans ?_ (h ⟨o, ho, hnam⟩)
      rw [← (hperm.filter _).length_eq, hspl, filter_append, length_append,
        filter_congr fun b hb => ?_]
      · exact Nat.le_add_right _ _
      · rw [isMatch_eq, hbef b hb, Bool.and_true]
    · rw [b.matchesFull_eq]
      simpa using hbef b hb

end OptionSet

/-! ### Extracting arguments -/

section

variable {s : OptionSet} {o : Opt} {v : Bytes}

theorem namePart_fullName (ho : o.Plain) (hc : isSeparator c = true) :
    namePart (o.fullName ++ c :: v) = o.fullName := by
  rw [namePart_append ho.fullName, namePart_cons hc, append_nil]

theorem process_full (ho : o.Plain) (hc : isSeparator c = true) :
    o.process (o.fullName ++ c :: v) = .ok v := by
  rw [Opt.process, namePart_fullName ho hc, if_pos o.matchesName_fullName,
    if_pos ho.takesArgument, argPart_append ho.fullName, argPart_cons hc]

theorem process_short (ho : o.Plain) (hr : Readable s o v) (hv : v ≠ []) :
    o.process (o.shortName ++ v) = .ok v := by
  have hpre : (!o.shortName.isEmpty && o.shortName.isPrefixOf (o.shortName ++ v)) = true := by
    simp [ho.ne_nil]
  have hlon : (o.argRequired && (o.shortName ++ v).length == o.shortName.length) = false := by
    simp [hv]
  rw [Opt.process, if_neg (by rw [hr.apart]; decide), if_pos hpre, if_pos ho.takesArgument,
    if_neg (by rw [hlon]; decide), drop_left]

namespace OptionProcessor

/-- The first option of a command line is looked up and extracts its argument. -/
theorem processCommon_fresh (hne : optionStr ≠ []) (hget : s.getOption optionStr isShort = .ok o) :
    ∃ p : OptionProcessor, (fresh s).processCommon optionStr isShort =
        p.extract o optionStr isShort ∧ p.options = s ∧ p.ignore = false := by
  have hemp : optionStr.isEmpty = false := by
    rw [Bool.eq_false_iff, ne_eq, List.isEmpty_iff]
    exact hne
  -- neither a group nor an option has been recorded before
  refine ⟨⟨s, true, false, if o.group.isEmpty then [] else [o.group], [o.fullName], []⟩,
    ?_, rfl, rfl⟩
  cases hgro : o.group.isEmpty <;> simp [processCommon, fresh, hemp, hget, hgro]

theorem process_long (hne : optionStr ≠ []) :
    (fresh s).process (0x2D :: 0x2D :: optionStr) = (fresh s).processCommon optionStr false := by
  cases optionStr with
  | nil => exact absurd rfl hne
  | cons c cs => rfl

theorem process_dash (hne : optionStr ≠ []) (hdash : optionStr.head? ≠ some 0x2D) :
    (fresh s).process (0x2D :: optionStr) = (fresh s).processCommon optionStr true := by
  cases optionStr with
  | nil => exact absurd rfl hne
  | cons c cs =>
    have hc : c ≠ 0x2D := fun h => hdash (congrArg some h)
    exact if_neg hc

theorem reports_of_extract {p : OptionProcessor}
    (hpro : (fresh s).process argument = p.extract o optionStr isShort)
    (hnow : ((!isShort && (argPart optionStr).isNone) ||
      (isShort && optionStr.length == o.shortName.length)) = false)
    (harg : o.process optionStr = .ok v) : Reports s [argument] o.fullName v := by
  have hrep : p.extract o optionStr isShort = (p, .ok ⟨true, o.fullName, v⟩) := by
    rw [extract, hnow, Bool.and_false, if_neg (by decide), harg]
    rfl
  refine ⟨[⟨true, o.fullName, v⟩], ?_, by simp, rfl⟩
  rw [processAll, hpro, hrep]
  rfl

theorem not_reports_of_getOption (hne : optionStr ≠ [])
    (hget : s.getOption optionStr false = .error e) :
    ¬ Reports s [0x2D :: 0x2D :: optionStr] name v := by
  rintro ⟨rs, hrs, -, -⟩
  rw [processAll, process_long hne, processCommon] at hrs
  simp [fresh, hne, hget] at hrs

/-- If the text is read as a full name, the argument is what stands behind the first separator, and
not all of a text that has no separator before it. -/
theorem not_reports_of_extract {p : OptionProcessor} {w : Bytes}
    (hpro : (fresh s).process argument = p.extract o (w ++ v) isShort)
    (hmat : o.matchesName (namePart (w ++ v)) = true) (hw : ∀ c ∈ w, isSeparator c = false)
    (hv : v ≠ []) (hname : name ≠ []) : ¬ Reports s [argument] name v := by
  rintro ⟨rs, hrs, -, hlast⟩
  have hshort : argPart v ≠ some v := by
    intro h
    have hle := (dropWhile_sublist (l := v) fun c => !isSeparator c).length_le
    rw [argPart] at h
    split at h
    · cases h
    · next hdrop =>
      cases h
      rw [hdrop, length_cons] at hle
      omega
  have harg : o.process (w ++ v) ≠ .ok v := by
    rw [Opt.process, if_pos hmat, argPart_append hw]
    split_ifs <;> split <;> simp_all
  rw [processAll, hpro, extract] at hrs
  split_ifs at hrs
  · cases hrs
    exact hname (congrArg Report.optionName (Option.some.inj hlast)).symm
  · cases hprc : o.process (w ++ v) with
    | error e =>
      rw [hprc] at hrs
      cases hrs
    | ok arg =>
      rw [hprc] at hrs
      cases hrs
      refine harg (hprc.trans (congrArg _ ?_))
      exact congrArg Report.optionArg (Option.some.inj hlast)

theorem reports_of_deferred (hs : s.Distinct) (ho : o.Plain) (hmem : o ∈ s.options)
    (hr : Readable s o v) {p : OptionProcessor}
    (hpro : (fresh s).process argument = p.extract o optionStr isShort)
    (hopt : p.options = s) (hign : p.ignore = false)
    (hlat : ((!isShort && (argPart optionStr).isNone) ||
      (isShort && optionStr.length == o.shortName.length)) = true) :
    Reports s [argument, v] o.fullName v := by
  have hne := s.named o hmem
  have hdef : p.extract o optionStr isShort =
      ({ p with deferredOption := o.fullName }, .ok ⟨true, [], []⟩) := by
    rw [extract, hlat, ho.argRequired, if_pos (by decide)]
  -- the option is found again by its full name
  have hget : p.options.getOption o.fullName false = .ok o := by
    rw [hopt]
    exact OptionSet.getOption_of_readable hs hr ho.namePart_fullName hne
  have hemp : (!o.fullName.isEmpty) = true := by
    rw [Bool.not_eq_true', Bool.eq_false_iff, ne_eq, List.isEmpty_iff]
    exact hne
  have h2nd : process { p with deferredOption := o.fullName } v =
      ({ p with deferredOption := [] }, .ok ⟨true, o.fullName, v⟩) := by
    rw [process, if_neg (by rw [hign]; decide), if_pos hemp, processCommon, if_pos hemp,
      processDeferred, hget]
    dsimp only
    rw [process_full ho (by decide)]
    rfl
  refine ⟨[⟨true, [], []⟩, ⟨true, o.fullName, v⟩], ?_, by simp, rfl⟩
  rw [processAll, hpro, hdef]
  dsimp only
  rw [processAll, h2nd]
  rfl

end OptionProcessor

open OptionProcessor

theorem readable_of_reports (hs : s.Distinct) (ho : o.Plain) (hmem : o ∈ s.options) (hv : v ≠ [])
    (h : ∀ line ∈ spellings o v, Reports s line o.fullName v) : Readable s o v := by
  have hne := s.named o hmem
  have hstr : o.shortName ++ v ≠ [] := by simp [hv]
  have hshort := h [0x2D :: (o.shortName ++ v)] (by simp [spellings])
  have hdash : o.shortName.head? ≠ some 0x2D := by
    intro hdash
    obtain ⟨w, hw⟩ : ∃ w, o.shortName = 0x2D :: w := by
      cases hsn : o.shortName with
      | nil => exact absurd hsn ho.ne_nil
      | cons c w => exact ⟨w, by simpa [hsn] using hdash⟩
    have hfree := ho.shortName
    rw [hw] at hshort hfree
    have hwv : w ++ v ≠ [] := by simp [hv]
    -- the text is looked up as a full name
    cases hget : s.getOption (w ++ v) false with
    | error e => exact not_reports_of_getOption hwv hget hshort
    | ok a =>
      obtain ⟨p, hp, -, -⟩ := processCommon_fresh hwv hget
      exact not_reports_of_extract ((process_long hwv).trans hp)
        (OptionSet.matchesName_of_getOption hget) (fun c hc => hfree c (mem_cons_of_mem _ hc))
        hv hne hshort
  refine ⟨?_, ?_, hdash⟩
  · obtain ⟨before, after, hspl⟩ := append_of_mem hmem
    refine ⟨before, after, hspl, ?_⟩
    by_contra hmany
    have hfull : o.fullName ++ 0x3D :: v ≠ [] := by simp
    have hname : namePart (o.fullName ++ 0x3D :: v) = o.fullName := namePart_fullName ho rfl
    have hget := OptionSet.getOption_full hs hspl hname hfull
    rw [if_neg hmany] at hget
    exact not_reports_of_getOption hfull hget (h _ (by simp [spellings]))
  · by_contra hmat
    obtain ⟨p, hp, -, -⟩ := processCommon_fresh hstr
      (OptionSet.getOption_short hs hmem ho.ne_nil v)
    have hhead : (o.shortName ++ v).head? ≠ some 0x2D := by
      rwa [head?_append_of_ne_nil _ ho.ne_nil]
    exact not_reports_of_extract ((process_dash hstr hhead).trans hp) (by simpa using hmat)
      ho.shortName hv hne hshort

theorem reports_of_readable (hs : s.Distinct) (ho : o.Plain) (hmem : o ∈ s.options)
    (hv : v ≠ []) (hr : Readable s o v) : ∀ line ∈ spellings o v, Reports s line o.fullName v := by
  have hne := s.named o hmem
  have hdash : ∀ t, (o.shortName ++ t).head? ≠ some 0x2D := by
    intro t
    rw [head?_append_of_ne_nil _ ho.ne_nil]
    exact hr.noDash
  have hlen : ((o.shortName ++ v).length == o.shortName.length) = false := by
    simp [hv]
  -- a full name with a separator and the argument
  have hfull : ∀ c, isSeparator c = true →
      Reports s [0x2D :: 0x2D :: (o.fullName ++ c :: v)] o.fullName v := by
    intro c hc
    have hsome : argPart (o.fullName ++ c :: v) = some v := by
      rw [argPart_append ho.fullName, argPart_cons hc]
    have hstr : o.fullName ++ c :: v ≠ [] := by simp
    obtain ⟨p, hp, -, -⟩ := processCommon_fresh hstr
      (OptionSet.getOption_of_readable hs hr (namePart_fullName ho hc) hstr)
    refine reports_of_extract ((process_long hstr).trans hp) ?_
      (process_full ho hc)
    rw [hsome]
    rfl
  intro line hline
  simp only [spellings, mem_cons, not_mem_nil, or_false] at hline
  rcases hline with rfl | rfl | rfl | rfl | rfl
  · have hstr : o.shortName ++ v ≠ [] := by simp [hv]
    obtain ⟨p, hp, -, -⟩ := processCommon_fresh hstr
      (OptionSet.getOption_short hs hmem ho.ne_nil v)
    refine reports_of_extract
      ((process_dash hstr (hdash v)).trans hp) ?_ (process_short ho hr hv)
    rw [hlen]
    rfl
  · have hget := OptionSet.getOption_short hs hmem ho.ne_nil []
    have hd := hdash []
    rw [append_nil] at hget hd
    obtain ⟨p, hp, hopt, hign⟩ := processCommon_fresh ho.ne_nil hget
    refine reports_of_deferred hs ho hmem hr
      ((process_dash ho.ne_nil hd).trans hp) hopt hign ?_
    simp
  · exact hfull 0x3D (by decide)
  · exact hfull 0x3A (by decide)
  · have hnone : argPart o.fullName = none := by
      have h := argPart_append ho.fullName []
      rw [append_nil] at h
      exact h
    obtain ⟨p, hp, hopt, hign⟩ := processCommon_fresh hne
      (OptionSet.getOption_of_readable hs hr ho.namePart_fullName hne)
    refine reports_of_deferred hs ho hmem hr
      ((process_long hne).trans hp) hopt hign ?_
    rw [hnone]
    rfl

/-- **All spellings of an option agree**, each of them reporting the option with its argument, if
and only if they can be read as they are meant. -/
theorem spellings_agree_iff (hs : s.Distinct) (ho : o.Plain) (hmem : o ∈ s.options) (hv : v ≠ []) :
    (∀ line ∈ spellings o v, Reports s line o.fullName v) ↔ Readable s o v :=
  ⟨readable_of_reports hs ho hmem hv, reports_of_readable hs ho hmem hv⟩

end

def fileOption : Opt := ⟨[0x66], [0x66, 0x69, 0x6C, 0x65], false, [0x6E], true, []⟩

def filesAndFile : OptionSet :=
  ⟨[⟨[], [0x66, 0x69, 0x6C, 0x65, 0x73], false, [], false, []⟩, fileOption], by decide, by decide⟩

theorem filesAndFile_distinct : filesAndFile.Distinct := ⟨by decide, by decide⟩

/-- The name `FILE` is found in any order, and its beginning `fil` means none of them. -/
theorem getOption_file : filesAndFile.getOption [0x46, 0x49, 0x4C, 0x45] false = .ok fileOption ∧
    filesAndFile.getOption [0x66, 0x69, 0x6C] false =
      .error (.ambiguousOption [0x66, 0x69, 0x6C]) :=
  ⟨(OptionSet.getOption_eq_meant_iff filesAndFile_distinct.fullName _).mpr (by decide) _ (.refl _),
    (OptionSet.getOption_eq_meant_iff filesAndFile_distinct.fullName _).mpr (by decide) _ (.refl _)⟩

def prefixed : OptionSet :=
  ⟨[[0x61, 0x62], [0x61, 0x63], [0x61]].map fun name => ⟨[], name, false, [], false, []⟩,
    by decide, by decide⟩

/-- The last of them is not found by its full name. -/
theorem getOption_prefixed :
    (prefixed.options.Pairwise fun a b => icompare a.fullName b.fullName ≠ 0) ∧
      prefixed.getOption [0x61] false = .error (.ambiguousOption [0x61]) ∧
      prefixed.meant [0x61] = .ok ⟨[], [0x61], false, [], false, []⟩ := by
  decide

theorem fileOption_plain : fileOption.Plain :=
  ⟨rfl, rfl, by decide, by decide, by decide⟩

theorem spellings_of_file : Readable filesAndFile fileOption [0x78] ∧
    ∀ line ∈ spellings fileOption [0x78], Reports filesAndFile line fileOption.fullName [0x78] := by
  have hread : Readable filesAndFile fileOption [0x78] :=
    ⟨⟨[_], [], rfl, by decide⟩, by decide, by decide⟩
  refine ⟨hread, ?_⟩
  exact (spellings_agree_iff filesAndFile_distinct fileOption_plain (by decide) (by decide)).mpr
    hread

/-- With the argument `i`, the text behind the dash is the beginning of the full name, and the
argument is reported missing. -/
theorem short_spelling_fails :
    filesAndFile.Distinct ∧ fileOption.Plain ∧ fileOption ∈ filesAndFile.options ∧ ¬∀ line ∈
      spellings fileOption [0x69], Reports filesAndFile line fileOption.fullName [0x69] := by
  refine ⟨filesAndFile_distinct, fileOption_plain, by decide, ?_⟩
  intro h
  obtain ⟨rs, hrs, -, -⟩ := h [[0x2D, 0x66, 0x69]] (by decide)
  cases hrs

end Poco.Util
