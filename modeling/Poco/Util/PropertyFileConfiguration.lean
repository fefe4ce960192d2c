import Poco.Ascii
import Poco.Lib.SortedAssoc

/-!
# Property files

`PropertyFileConfiguration` of `PropertyFileConfiguration.cpp`: a map from keys to values,
written by `save` as one line for each entry and read by `load`.  The reader undoes escapes
in values and joins lines that end in a backslash, but the writer prints values as they are,
so a value with a backslash or a line break is not read as it was, and a backslash at the
end of a value makes the next entry part of it.

## Main definitions

* `MapConfiguration`: the entries, in the order of their keys.
* `load`, `save`, `parseLine`: the functions.
* `Verbatim`: the reader does not interpret the value: it has neither backslashes nor line breaks.
* `cost`, `total`: the backslashes that the text of a value, and of a map, has at least: two for
  each one of its own, and one for a line break.

## Main results

* `parseLine_line`: a line that was saved is read as its entry.
* `verbatim_of_load_save`: a configuration whose text is loaded as it was is verbatim: each
  backslash of a value would need another one, and each line break one.
* `load_save_iff`: what is saved is loaded exactly if all values are verbatim.
-/

namespace Poco.Util

open List Ascii

@[ext]
structure MapConfiguration where
  map : List (Bytes × Bytes)
  sorted : SortedAssoc.Sorted map
deriving DecidableEq

namespace MapConfiguration

def empty : MapConfiguration := ⟨[], .nil⟩

def setRaw (c : MapConfiguration) (key value : Bytes) : MapConfiguration :=
  ⟨SortedAssoc.set c.map key value, SortedAssoc.sorted_set c.sorted key value⟩

end MapConfiguration

namespace PropertyFileConfiguration

/-! ### Reading

The stream is the list of the characters that are left; `none` in the place of what is left
means that a read has met the end of the stream. -/

/-- `readChar`: the next character of a value, zero at the end of its line, or nothing at the
end of the stream. -/
def readChar : Bytes → Option UInt8 × Bytes
  | [] => (none, [])
  | c :: cs =>
    if c = 0x5C then
      match cs with
      | [] => (none, [])
      | e :: es =>
        if e = 0x74 then (some 0x09, es)
        else if e = 0x72 then (some 0x0D, es)
        else if e = 0x6E then (some 0x0A, es)
        else if e = 0x66 then (some 0x0C, es)
        else if e = 0x0D then
          -- a carriage return may be followed by a line feed
          match es with
          | [] => readChar []
          | f :: fs => if f = 0x0A then readChar fs else readChar (f :: fs)
        else if e = 0x0A then readChar es
        else (some e, es)
    else if c = 0x0A ∨ c = 0x0D then (some 0, cs)
    else (some c, cs)

variable {rest s : Bytes} {c : UInt8}

theorem readChar_length (h : readChar s = (some c, rest)) : rest.length < s.length := by
  fun_induction readChar s with grind

def readValue (s : Bytes) : Bytes × Option Bytes :=
  match _h : readChar s with
  | (none, _) => ([], none)
  | (some c, rest) =>
    if c = 0 then ([], some rest)
    else (c :: (readValue rest).1, (readValue rest).2)
termination_by s.length
decreasing_by all_goals exact readChar_length ‹_›

theorem readValue_of_readChar (h : readChar s = (some c, t)) :
    readValue s = if c = 0 then ([], some t) else (c :: (readValue t).1, (readValue t).2) := by
  rw [readValue]
  split
  · next h' => rw [h] at h'; cases h'
  · next h' =>
    rw [h] at h'
    cases h'
    rfl

theorem readValue_length (h : (readValue s).2 = some rest) : rest.length < s.length := by
  fun_induction readValue s with
  | case1 => cases h
  | case2 s r hr =>
    cases h
    exact readChar_length hr
  | case3 s c r hr hc ih => exact (ih h).trans (readChar_length hr)

def inKey (c : UInt8) : Bool := c != 0x3D && c != 0x3A && c != 0x0D && c != 0x0A

/-- `parseLine`: the configuration after the line, and what is left. -/
def parseLine (c : MapConfiguration) (s : Bytes) : MapConfiguration × Option Bytes :=
  match s.dropWhile isSpace with
  | [] => (c, none)
  | d :: ds =>
    if d = 0x23 ∨ d = 0x21 then
      -- a comment ends with its line
      match (d :: ds).dropWhile fun b => b != 0x0A && b != 0x0D with
      | [] => (c, none)
      | _ :: rest => (c, some rest)
    else
      let key := (d :: ds).takeWhile inKey
      match (d :: ds).dropWhile inKey with
      | [] => (c.setRaw (trim key) [], none)
      | b :: rest =>
        if b = 0x3D ∨ b = 0x3A then
          (c.setRaw (trim key) (trim (readValue rest).1), (readValue rest).2)
        else (c.setRaw (trim key) [], some rest)

theorem parseLine_length {c : MapConfiguration} (h : (parseLine c s).2 = some rest) :
    rest.length < s.length := by
  have hskip := (dropWhile_sublist (l := s) isSpace).length_le
  unfold parseLine at h
  split at h
  · cases h
  next d ds hs =>
  rw [hs] at hskip
  split_ifs at h with hd
  · have hline := (dropWhile_sublist (l := d :: ds) fun b => b != 0x0A && b != 0x0D).length_le
    split at h
    · cases h
    · next hrest =>
      cases h
      rw [hrest, length_cons] at hline
      omega
  · have hkey := (dropWhile_sublist (l := d :: ds) inKey).length_le
    split at h
    · cases h
    next b r hrest =>
    rw [hrest, length_cons] at hkey
    split_ifs at h with hb
    · have := readValue_length h
      omega
    · cases h
      omega

/-- The loop of `load`, which ends when a line has met the end of the stream. -/
def loadLoop (c : MapConfiguration) (s : Bytes) : MapConfiguration :=
  match _h : (parseLine c s).2 with
  | none => (parseLine c s).1
  | some rest => loadLoop (parseLine c s).1 rest
termination_by s.length
decreasing_by exact parseLine_length ‹_›

theorem loadLoop_of_parseLine {c c' : MapConfiguration} (h : parseLine c s = (c', some rest)) :
    loadLoop c s = loadLoop c' rest := by
  rw [loadLoop]
  split
  · next h' => rw [h] at h'; cases h'
  · next h' =>
    rw [h] at h' ⊢
    cases h'
    rfl

theorem loadLoop_nil (c : MapConfiguration) : loadLoop c [] = c := by
  rw [loadLoop]
  rfl

def load (s : Bytes) : MapConfiguration := loadLoop .empty s

/-! ### Writing -/

def line (e : Bytes × Bytes) : Bytes := e.1 ++ [0x3A, 0x20] ++ e.2 ++ [0x0A]

def save (c : MapConfiguration) : Bytes := c.map.flatMap line

/-! ### Loading what was saved -/

structure Key (key : Bytes) : Prop where
  ne_nil : key ≠ []
  inKey : ∀ c ∈ key, inKey c = true
  trimmed : Trimmed key
  notComment : key.head? ≠ some 0x23 ∧ key.head? ≠ some 0x21

structure Value (value : Bytes) : Prop where
  trimmed : Trimmed value
  noNul : 0 ∉ value

def Verbatim (value : Bytes) : Prop := 0x5C ∉ value ∧ 0x0A ∉ value ∧ 0x0D ∉ value

instance (value : Bytes) : Decidable (Verbatim value) :=
  inferInstanceAs (Decidable (_ ∧ _ ∧ _))

theorem readValue_verbatim (hv : Verbatim value) (h0 : 0 ∉ value)
    (rest : Bytes) : readValue (value ++ 0x0A :: rest) = (value, some rest) := by
  obtain ⟨hback, hlf, hcr⟩ := hv
  induction value with
  | nil =>
    have hread : readChar (0x0A :: rest) = (some 0, rest) := by
      rw [readChar.eq_def]
      rfl
    exact readValue_of_readChar hread
  | cons c value ih =>
    rw [mem_cons, not_or] at h0 hback hlf hcr
    have hread : readChar (c :: (value ++ 0x0A :: rest)) = (some c, value ++ 0x0A :: rest) := by
      rw [readChar.eq_def]
      dsimp only
      rw [if_neg (Ne.symm hback.1), if_neg]
      rintro (h | h)
      · exact hlf.1 h.symm
      · exact hcr.1 h.symm
    rw [cons_append, readValue_of_readChar hread, if_neg (Ne.symm h0.1),
      ih h0.2 hback.2 hlf.2 hcr.2]

/-- A line that begins with a key and a colon is read as an entry of that key. -/
theorem parseLine_entry (c : MapConfiguration) (hk : Key key)
    (text : Bytes) : parseLine c (key ++ 0x3A :: text) =
      (c.setRaw key (trim (readValue text).1), (readValue text).2) := by
  obtain ⟨d, ds, rfl⟩ := exists_cons_of_ne_nil hk.ne_nil
  have hspc : isSpace d = false := hk.trimmed.1 d rfl
  have hskip : (d :: ds ++ 0x3A :: text).dropWhile isSpace = d :: (ds ++ 0x3A :: text) :=
    dropWhile_cons_of_neg (by rw [hspc]; exact Bool.false_ne_true)
  have hcom : ¬(d = 0x23 ∨ d = 0x21) := by
    rintro (rfl | rfl)
    · exact hk.notComment.1 rfl
    · exact hk.notComment.2 rfl
  have htake : (d :: (ds ++ 0x3A :: text)).takeWhile inKey = d :: ds := by
    rw [← cons_append, takeWhile_append_of_pos hk.inKey,
      takeWhile_cons_of_neg (by decide), append_nil]
  have hdrop : (d :: (ds ++ 0x3A :: text)).dropWhile inKey = 0x3A :: text := by
    rw [← cons_append, dropWhile_append_of_pos hk.inKey, dropWhile_cons_of_neg (by decide)]
  unfold parseLine
  rw [hskip]
  dsimp only
  rw [if_neg hcom, hdrop, htake]
  dsimp only
  rw [if_pos (.inr rfl), hk.trimmed.trim]

theorem parseLine_line (c : MapConfiguration) {e : Bytes × Bytes} (hk : Key e.1)
    (hv : Value e.2) (hpl : Verbatim e.2) (rest : Bytes) :
    parseLine c (line e ++ rest) = (c.setRaw e.1 e.2, some rest) := by
  have htext : line e ++ rest = e.1 ++ 0x3A :: (0x20 :: e.2 ++ 0x0A :: rest) := by simp [line]
  have hread : readValue (0x20 :: e.2 ++ 0x0A :: rest) = (0x20 :: e.2, some rest) := by
    refine readValue_verbatim ?_ ?_ rest
    · simpa [Verbatim] using hpl
    · simpa using hv.noNul
  -- the blank that `save` writes before the value is trimmed
  have htrim : trim (0x20 :: e.2) = e.2 := by
    exact hv.trimmed.trim
  rw [htext, parseLine_entry c hk, hread, htrim]

/-- Loading appends entries whose keys are above those that are there. -/
theorem loadLoop_lines (es : List (Bytes × Bytes)) (c : MapConfiguration)
    (hk : ∀ e ∈ es, Key e.1) (hv : ∀ e ∈ es, Value e.2) (hpl : ∀ e ∈ es, Verbatim e.2)
    (hsor : SortedAssoc.Sorted (c.map ++ es)) :
    (loadLoop c (es.flatMap line)).map = c.map ++ es := by
  induction es generalizing c with
  | nil =>
    rw [flatMap_nil, loadLoop_nil, append_nil]
  | cons e es ih =>
    have hline := parseLine_line c (hk e mem_cons_self) (hv e mem_cons_self)
      (hpl e mem_cons_self) (es.flatMap line)
    have hlt : ∀ a ∈ c.map, a.1 < e.1 := fun a ha =>
      (pairwise_append.mp hsor).2.2 a ha e mem_cons_self
    have hset : (c.setRaw e.1 e.2).map = c.map ++ [e] := SortedAssoc.set_of_forall_lt _ hlt
    rw [flatMap_cons, loadLoop_of_parseLine hline]
    rw [ih (c.setRaw e.1 e.2) (fun a ha => hk a (mem_cons_of_mem _ ha))
      (fun a ha => hv a (mem_cons_of_mem _ ha))
      (fun a ha => hpl a (mem_cons_of_mem _ ha)), hset, append_assoc]
    · rfl
    · rw [hset, append_assoc]
      exact hsor

/-! ### Backslashes -/

def cost (value : Bytes) : ℕ := 2 * value.count 0x5C + value.count 0x0A + value.count 0x0D

theorem cost_cons (c : UInt8) (value : Bytes) : cost (c :: value) = cost [c] + cost value := by
  simp only [cost, count_cons, count_nil]
  omega

theorem trim_sublist (str : Bytes) : trim str <+ str := by
  have hpre := rdropWhile_prefix isSpace (str.dropWhile isSpace)
  exact hpre.sublist.trans (dropWhile_sublist _)

theorem cost_trim_le (value : Bytes) : cost (trim value) ≤ cost value := by
  have hsub := trim_sublist value
  have h1 := hsub.count_le 0x5C
  have h2 := hsub.count_le 0x0A
  have h3 := hsub.count_le 0x0D
  unfold cost
  omega

theorem readChar_cost (h : readChar s = (some c, rest)) :
    cost [c] + rest.count 0x5C ≤ s.count 0x5C := by
  fun_induction readChar s with grind [cost]

theorem readValue_cost (s : Bytes) :
    cost (readValue s).1 + ((readValue s).2.getD []).count 0x5C ≤ s.count 0x5C := by
  fun_induction readValue s with
  | case1 => exact Nat.zero_le _
  | case2 s r hr => exact readChar_cost hr
  | case3 s c r hr hc ih =>
    have := readChar_cost hr
    rw [cost_cons]
    dsimp only
    omega

def total (c : MapConfiguration) : ℕ := (c.map.map fun e => e.1.count 0x5C + cost e.2).sum

theorem total_setRaw_le (c : MapConfiguration) (key value : Bytes) :
    total (c.setRaw key value) ≤ total c + (key.count 0x5C + cost value) :=
  SortedAssoc.sum_set_le _ _ _ _

theorem parseLine_total (c : MapConfiguration) (s : Bytes) :
    total (parseLine c s).1 + ((parseLine c s).2.getD []).count 0x5C ≤ total c + s.count 0x5C := by
  have hskip := (dropWhile_sublist (l := s) isSpace).count_le 0x5C
  unfold parseLine
  split
  · exact Nat.le_add_right _ _
  next d ds hs =>
  rw [hs] at hskip
  split_ifs
  · have hline := (dropWhile_sublist (l := d :: ds) fun b => b != 0x0A && b != 0x0D).count_le 0x5C
    split
    · exact Nat.le_add_right _ _
    · next hrest =>
      rw [hrest, count_cons] at hline
      dsimp only [Option.getD_some]
      omega
  · have hkey : ((d :: ds).takeWhile inKey).count 0x5C + ((d :: ds).dropWhile inKey).count 0x5C =
        (d :: ds).count 0x5C := by
      rw [← count_append, takeWhile_append_dropWhile]
    have htrim := (trim_sublist ((d :: ds).takeWhile inKey)).count_le 0x5C
    have hset := total_setRaw_le c (trim ((d :: ds).takeWhile inKey))
    have hnil : cost [] = 0 := rfl
    split
    · have := hset []
      dsimp only [Option.getD_none, count_nil]
      omega
    next b rest hrest =>
    rw [hrest, count_cons] at hkey
    split_ifs
    · have hval := readValue_cost rest
      have := hset (trim (readValue rest).1)
      have := cost_trim_le (readValue rest).1
      dsimp only
      omega
    · have := hset []
      dsimp only [Option.getD_some]
      omega

theorem loadLoop_total (c : MapConfiguration) (s : Bytes) :
    total (loadLoop c s) ≤ total c + s.count 0x5C := by
  fun_induction loadLoop c s with
  | case1 c s h => exact (Nat.le_add_right _ _).trans (parseLine_total c s)
  | case2 c s rest h ih =>
    have hline := parseLine_total c s
    rw [h, Option.getD_some] at hline
    exact ih.trans hline

theorem verbatim_of_load_save {c : MapConfiguration} (h : load (save c) = c) :
    ∀ e ∈ c.map, Verbatim e.2 := by
  have hle : total c ≤ (save c).count 0x5C := by
    have := loadLoop_total .empty (save c)
    rwa [← load, h, show total .empty = 0 from rfl, Nat.zero_add] at this
  have hsave : (save c).count 0x5C = (c.map.map fun e => e.1.count 0x5C + e.2.count 0x5C).sum := by
    rw [save, count_flatMap]
    congr 2
    funext e
    simp [line]
  have hsum : total c = (save c).count 0x5C + (c.map.map fun e =>
      e.2.count 0x5C + e.2.count 0x0A + e.2.count 0x0D).sum := by
    rw [hsave, total, ← sum_map_add]
    congr 2
    funext e
    unfold cost
    omega
  have hzero : (c.map.map fun e => e.2.count 0x5C + e.2.count 0x0A + e.2.count 0x0D).sum = 0 := by
    omega
  intro e he
  have := List.sum_eq_zero_iff_forall_eq_nat.mp hzero _ (mem_map_of_mem he)
  simp only [Verbatim, ← count_eq_zero]
  omega

/-- **What is saved is loaded** if and only if the reader does not interpret any of the values. -/
theorem load_save_iff (c : MapConfiguration) (hk : ∀ e ∈ c.map, Key e.1)
    (hv : ∀ e ∈ c.map, Value e.2) : load (save c) = c ↔ ∀ e ∈ c.map, Verbatim e.2 := by
  constructor
  · exact verbatim_of_load_save
  · intro hplain
    exact MapConfiguration.ext (loadLoop_lines c.map .empty hk hv hplain c.sorted)

theorem load_save_pair :
    load (save ⟨[([0x61], [0x31]), ([0x62], [])], by decide⟩) =
      ⟨[([0x61], [0x31]), ([0x62], [])], by decide⟩ := by
  refine (load_save_iff _ ?_ ?_).mpr (by decide)
  all_goals
    intro e he
    simp only [mem_cons, not_mem_nil, or_false] at he
  · rcases he with rfl | rfl <;> exact ⟨by decide, by decide, by decide, by decide⟩
  · rcases he with rfl | rfl <;> exact ⟨by decide, by decide⟩

/-- The value `\t` comes back as a tab, which is trimmed as well. -/
theorem load_save_backslash :
    Key [0x61] ∧ Value [0x5C, 0x74] ∧
      load (save ⟨[([0x61], [0x5C, 0x74])], by decide⟩) ≠
        ⟨[([0x61], [0x5C, 0x74])], by decide⟩ := by
  have hkey : Key [0x61] := ⟨by decide, by decide, by decide, by decide⟩
  refine ⟨hkey, ⟨by decide, by decide⟩, ?_⟩
  have hval : readValue [0x20, 0x5C, 0x74, 0x0A] = ([0x20, 0x09], some []) := by
    rw [readValue_of_readChar (t := [0x5C, 0x74, 0x0A]) (c := 0x20) (by decide),
      readValue_of_readChar (t := [0x0A]) (c := 0x09) (by decide),
      readValue_of_readChar (t := []) (c := 0) (by decide)]
    rfl
  have hprs := parseLine_entry .empty hkey [0x20, 0x5C, 0x74, 0x0A]
  rw [hval] at hprs
  have hload : load (save ⟨[([0x61], [0x5C, 0x74])], by decide⟩) =
      MapConfiguration.empty.setRaw [0x61] [] :=
    (loadLoop_of_parseLine hprs).trans (loadLoop_nil _)
  rw [hload]
  decide

end PropertyFileConfiguration

end Poco.Util
