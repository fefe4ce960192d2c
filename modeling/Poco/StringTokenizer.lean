import Poco.Ascii
import Poco.Lib.Separated

/-!
# Splitting a string into tokens

The constructor of `StringTokenizer`.  Its loop hands over the fields before separators, and what
stands after the last one is dealt with behind the loop: an empty field is known by the flag
`lastToken`, one that becomes empty by trimming is forgotten.

## Main definitions

* `tokens`: the tokens, as the constructor finds them.
* `fields`: the fields between separators, trimmed and without the empty ones if this is asked for.

## Main results

* `tokens_eq_fields_iff`: the tokens are the fields, unless trimming makes the last field empty
  where empty ones are kept.
-/

namespace Poco.StringTokenizer

open List Ascii

def trim (token : Bytes) : Bytes :=
  let front := (token.takeWhile isSpace).length
  let back := if front < token.length then (token.reverse.takeWhile isSpace).length else 0
  (token.drop front).take (token.length - back - front)

section Tokens

variable (isSep : UInt8 → Bool) (doTrim ignoreEmpty : Bool)

def trimmed (token : Bytes) : Bytes := if doTrim then trim token else token

/-- What is done with a token before a separator. -/
def push (tokens : List Bytes) (token : Bytes) : List Bytes :=
  let token := trimmed doTrim token
  if token ≠ [] ∨ ignoreEmpty = false then tokens ++ [token] else tokens

/-- The loop: the tokens, the characters of the current one, and `lastToken`. -/
def loop : List Bytes → Bytes → Bool → Bytes →
    List Bytes × Bytes × Bool
  | tokens, token, lastToken, [] => (tokens, token, lastToken)
  | tokens, token, lastToken, c :: s =>
    if isSep c then loop (push doTrim ignoreEmpty tokens token) [] (!ignoreEmpty || lastToken) s
    else loop tokens (token ++ [c]) false s

def tokens (str : Bytes) : List Bytes :=
  match loop isSep doTrim ignoreEmpty [] [] false str with
  | (tokens, token, lastToken) =>
    if token ≠ [] then
      let token := trimmed doTrim token
      if token ≠ [] then tokens ++ [token] else tokens
    else if lastToken then tokens ++ [[]] else tokens

def fields (str : Bytes) : List Bytes :=
  ((str.splitOnP isSep).map fun f => if doTrim then Poco.trim f else f).filter
    fun f => !(ignoreEmpty && f.isEmpty)

end Tokens

theorem dropWhile_eq_drop (p : α → Bool) (l : List α) :
    l.dropWhile p = l.drop (l.takeWhile p).length := by
  have happ := takeWhile_append_dropWhile (p := p) (l := l)
  exact (drop_left.symm).trans (congrArg (drop _) happ)

theorem trim_eq (token : Bytes) : trim token = Poco.trim token := by
  have happ := takeWhile_append_dropWhile (p := isSpace) (l := token)
  rw [trim, Poco.trim, ← dropWhile_eq_drop]
  generalize hl : token.dropWhile isSpace = l at happ ⊢
  rw [rdropWhile, dropWhile_eq_drop, drop_reverse, reverse_reverse]
  cases l with
  | nil => simp
  | cons c l =>
    -- the trailing white space is in what is left without the leading one
    have hback : token.reverse.takeWhile isSpace = (c :: l).reverse.takeWhile isSpace := by
      rw [← happ, reverse_append, takeWhile_append, if_neg]
      intro hall
      have hc := takeWhile_eq_self_iff.mp ((takeWhile_sublist _).eq_of_length hall) c (by simp)
      have hnot := dropWhile_get_zero_not isSpace token (by simp [hl])
      simp [hl, hc] at hnot
    have hlen := congrArg length happ
    rw [length_append, length_cons] at hlen
    rw [if_pos (by omega), hback, length_cons]
    congr 1
    omega

theorem trim_eq_nil_iff : Poco.trim token = [] ↔ ∀ c ∈ token, isSpace c = true := by
  rw [Poco.trim, rdropWhile_eq_nil_iff]
  refine ⟨fun h => ?_, fun h c hc => h c ((dropWhile_sublist _).subset hc)⟩
  rw [← takeWhile_append_dropWhile (l := token)]
  intro c hc
  exact (mem_append.mp hc).elim (mem_takeWhile_imp ·) (h c ·)

section Loop

variable {isSep : UInt8 → Bool} {doTrim ignoreEmpty : Bool}

/-- The flag tells whether the text ends in a separator, if empty tokens are kept. -/
theorem loop_eq (hlast : lastToken = true → ignoreEmpty = false)
    (hscan : Separated.scan isSep (push doTrim ignoreEmpty) ts token s = (ts', token')) :
    ∃ flag, loop isSep doTrim ignoreEmpty ts token lastToken s = (ts', token', flag) ∧
      (token' = [] → flag = if s = [] then lastToken else !ignoreEmpty) := by
  induction s generalizing ts token lastToken with
  | nil =>
    cases hscan
    exact ⟨lastToken, rfl, fun _ => rfl⟩
  | cons c s ih =>
    rw [Separated.scan] at hscan
    rw [loop, if_neg (cons_ne_nil c s)]
    split_ifs at hscan ⊢
    · have hkept : (!ignoreEmpty || lastToken) = true → ignoreEmpty = false := by grind
      obtain ⟨flag, heq, hflag⟩ := ih hkept hscan
      refine ⟨flag, heq, fun hnil => ?_⟩
      cases ignoreEmpty <;> simp_all
    · obtain ⟨flag, heq, hflag⟩ := ih (by simp : false = true → ignoreEmpty = false) hscan
      refine ⟨flag, heq, fun hnil => ?_⟩
      have hs : s ≠ [] := by
        rintro rfl
        cases hscan
        exact append_ne_nil_of_right_ne_nil _ (cons_ne_nil c []) hnil
      rw [hflag hnil, if_neg hs]

theorem foldl_push (fs : List Bytes) (tokens : List Bytes) :
    fs.foldl (push doTrim ignoreEmpty) tokens = tokens ++
      (fs.map fun f => if doTrim then Poco.trim f else f).filter
        fun f => !(ignoreEmpty && f.isEmpty) := by
  induction fs generalizing tokens with
  | nil => simp
  | cons f fs ih =>
    rw [foldl_cons, push, trimmed, trim_eq]
    grind

end Loop

theorem tokens_eq_fields_iff (separators : Bytes) (doTrim ignoreEmpty : Bool)
    (str : Bytes) (hstr : str ≠ []) :
    tokens (separators.contains ·) doTrim ignoreEmpty str =
        fields (separators.contains ·) doTrim ignoreEmpty str ↔
      ¬ (doTrim = true ∧ ignoreEmpty = false ∧
        ∃ last ∈ (str.splitOnP (separators.contains ·)).getLast?,
          last ≠ [] ∧ ∀ c ∈ last, isSpace c = true) := by
  have hne := splitOnP_ne_nil (separators.contains ·) str
  have hscan := @Separated.scan_eq _ _ (separators.contains ·) (push doTrim ignoreEmpty) [] str
  obtain ⟨flag, hloop, hflag⟩ := loop_eq (fun h : false = true => nomatch h) hscan
  rw [foldl_push, nil_append] at hloop
  rw [if_neg hstr] at hflag
  rw [tokens, hloop, fields, getLast?_eq_some_getLast hne]
  conv_lhs => rhs; rw [← dropLast_append_getLast hne, map_append, filter_append]
  generalize (str.splitOnP (separators.contains ·)).getLast hne = last at hflag
  have hnil : trimmed doTrim last = [] ↔
      last = [] ∨ doTrim = true ∧ ∀ c ∈ last, isSpace c = true := by
    rw [trimmed, trim_eq, ← trim_eq_nil_iff]
    cases doTrim <;> simp
    rintro rfl
    rfl
  simp only [trimmed, trim_eq, map_singleton] at hnil hflag ⊢
  clear hloop
  generalize (if doTrim then Poco.trim last else last) = t at hnil ⊢
  generalize filter _ (map _ (dropLast _)) = front
  by_cases hlast : last = []
  · have ht := hnil.mpr (.inl hlast)
    cases ignoreEmpty <;> simp [hflag hlast, hlast, ht]
  · by_cases ht : t = []
    · have hspaces := (hnil.mp ht).resolve_left hlast
      cases ignoreEmpty <;> simp [hlast, ht, hspaces.1]
      exact hspaces.2
    · have hspaces := mt hnil.mpr ht
      grind

theorem tokens_trimmed : tokens ([0x2C].contains ·) true false [0x61, 0x20, 0x2C, 0x62] =
    fields ([0x2C].contains ·) true false [0x61, 0x20, 0x2C, 0x62] :=
  (tokens_eq_fields_iff [0x2C] true false [0x61, 0x20, 0x2C, 0x62] nofun).mpr (by decide)

/-- The text `a,` with a blank behind it. -/
theorem tokens_blank : tokens ([0x2C].contains ·) true false [0x61, 0x2C, 0x20] = [[0x61]] ∧
    fields ([0x2C].contains ·) true false [0x61, 0x2C, 0x20] = [[0x61], []] := by
  decide

end Poco.StringTokenizer
