import Poco.Lib.Bytes
import Mathlib.Tactic.Common

/-!
# Line endings

`LineEndingConverterStreamBuf` of `Foundation/src/LineEndingConverter.cpp`.  The reader looks one
character ahead after a carriage return, the writer remembers the last character.

## Main definitions

* `read`, `write`: up to a number of characters are read, and a text is written.
* `convert`: line endings are replaced, the longest one first.

## Main results

* `convert_both`: reading and writing convert line endings alike.
-/

namespace Poco.LineEndingConverter

open List

def CR : UInt8 := 0x0D

def LF : UInt8 := 0x0A

/-- `readFromDevice`, with `_it` as the rest of the newline string and the stream: the character
and both afterwards.  As the newline string is not empty, the loop ends behind a line ending. -/
def readFromDevice (newLine : Bytes) :
    Bytes → Bytes → Option UInt8 × Bytes × Bytes
  | c :: it, s => (some c, it, s)
  | [], [] => (none, [], [])
  | [], c :: s =>
    if c = CR then (newLine.head?, newLine.tail, if s.head? = some LF then s.tail else s)
    else if c = LF then (newLine.head?, newLine.tail, s)
    else (some c, [], s)

def read (newLine : Bytes) : ℕ → Bytes → Bytes → Bytes
  | 0, _, _ => []
  | n + 1, it, s =>
    match readFromDevice newLine it s with
    | (none, _) => []
    | (some c, it, s) => c :: read newLine n it s

/-- `writeToDevice`, on `_lastChar` and what has been written. -/
def writeToDevice (newLine : Bytes) (w : UInt8 × Bytes) (c : UInt8) :
    UInt8 × Bytes :=
  let ostr := if c = CR ∨ c = LF ∧ w.1 ≠ CR then w.2 ++ newLine else w.2
  (c, if c ≠ LF ∧ c ≠ CR then ostr ++ [c] else ostr)

def write (newLine s : Bytes) : Bytes := (s.foldl (writeToDevice newLine) (0, [])).2

def convert (newLine : Bytes) : Bytes → Bytes
  | [] => []
  | [c] => if c = CR ∨ c = LF then newLine else [c]
  | c :: d :: s =>
    if c = CR ∧ d = LF then newLine ++ convert newLine s
    else (if c = CR ∨ c = LF then newLine else [c]) ++ convert newLine (d :: s)

variable {newLine newLine' s : Bytes}

theorem convert_cons (newLine : Bytes) (c : UInt8) (s : Bytes) :
    convert newLine (c :: s) =
      if c = CR ∨ c = LF then
        newLine ++ convert newLine (if c = CR ∧ s.head? = some LF then s.tail else s)
      else c :: convert newLine s := by
  by_cases hc : c = CR ∨ c = LF
  · cases s with
    | nil => simp [convert]
    | cons d s => by_cases h : c = CR ∧ d = LF <;> simp [convert, hc, h]
  · cases s with
    | nil => simp [convert]
    | cons d s => simp [convert, hc, mt And.left (not_or.mp hc).1]

theorem read_eq (hne : newLine ≠ []) : ∀ {n : ℕ} {it s : Bytes},
    (it ++ convert newLine s).length < n → read newLine n it s = it ++ convert newLine s := by
  obtain ⟨a, nl, rfl⟩ := exists_cons_of_ne_nil hne
  intro n
  induction n with
  | zero =>
    intro it s h
    omega
  | succ n ih =>
    intro it s h
    rw [read]
    cases it with
    | cons c it =>
      rw [cons_append, length_cons] at h
      exact congrArg (c :: ·) (ih (by omega))
    | nil =>
      cases s with
      | nil => rfl
      | cons c s =>
        rw [nil_append, convert_cons] at h ⊢
        by_cases hcr : c = CR
        · rw [if_pos (.inl hcr), cons_append, length_cons] at h
          simp only [readFromDevice, hcr, tail_cons, true_and] at h ⊢
          exact congrArg (a :: ·) (ih (by omega))
        · simp only [readFromDevice, hcr, if_false, false_and, false_or] at h ⊢
          split_ifs at h ⊢ with hlf
          · rw [cons_append, length_cons] at h
            exact congrArg (a :: ·) (@ih nl s (by omega))
          · exact congrArg (c :: ·) (@ih [] s (by simpa using h))

theorem foldl_writeToDevice (s : Bytes) (w : UInt8 × Bytes) :
    (s.foldl (writeToDevice newLine) w).2 =
      w.2 ++ convert newLine (if w.1 = CR ∧ s.head? = some LF then s.tail else s) := by
  induction s generalizing w with
  | nil => simp [convert]
  | cons c s ih =>
    rw [foldl_cons, ih, writeToDevice]
    have hne : LF ≠ CR := by decide
    by_cases hcr : c = CR
    · simp [hcr, hne.symm, convert_cons]
    by_cases hlf : c = LF
    · by_cases hw : w.1 = CR <;> simp [hlf, hne, hw, convert_cons]
    · simp [hcr, hlf, convert_cons]

/-- A newline string is one line ending, if no line feed follows a carriage return. -/
theorem convert_append (h : newLine ∈ [[CR], [LF], [CR, LF]])
    (hs : newLine = [CR] → s.head? ≠ some LF) :
    convert newLine' (newLine ++ s) = newLine' ++ convert newLine' s := by
  simp only [mem_cons, not_mem_nil, or_false] at h
  rcases h with rfl | rfl | rfl
  · simp [convert_cons, hs rfl]
  · simp [convert_cons, show ¬ LF = CR by decide]
  · simp [convert_cons]

theorem head?_convert_ne (s : Bytes) : (convert [CR] s).head? ≠ some LF := by
  cases s with
  | nil => simp [convert]
  | cons c s =>
    rw [convert_cons]
    split
    · simp [show ¬ CR = LF by decide]
    · next hc => simpa using (not_or.mp hc).2

theorem convert_convert (h : newLine ∈ [[CR], [LF], [CR, LF]]) (s : Bytes) :
    convert newLine' (convert newLine s) = convert newLine' s := by
  have happ (t : Bytes) : convert newLine' (newLine ++ convert newLine t) =
      newLine' ++ convert newLine' (convert newLine t) := by
    apply convert_append h
    rintro rfl
    exact head?_convert_ne t
  fun_induction convert newLine s with
  | case1 => rfl
  | case2 c hc => simpa [convert, hc] using happ []
  | case3 => rfl
  | case4 c d s hcd ih => rw [happ, ih, convert, if_pos hcd]
  | case5 c d s hcd ih =>
    rw [convert.eq_3 newLine', if_neg hcd]
    by_cases hc : c = CR ∨ c = LF
    · rw [if_pos hc, if_pos hc, happ, ih]
    · rw [if_neg hc, if_neg hc, singleton_append, convert_cons, if_neg hc, ih]
      rfl

/-- **Reading and writing convert line endings** alike, and a second conversion undoes nothing of
the first. -/
theorem convert_both (newLine s : Bytes) (hne : newLine ≠ []) :
    (∃ N, ∀ n ≥ N, read newLine n [] s = convert newLine s) ∧
      write newLine s = convert newLine s ∧
      ∀ nl ∈ [[CR], [LF], [CR, LF]], ∀ nl' ∈ [[CR], [LF], [CR, LF]],
        convert nl' (convert nl s) = convert nl' s := by
  refine ⟨⟨(convert newLine s).length + 1, fun n hn => read_eq hne hn⟩, ?_, ?_⟩
  · simp [write, foldl_writeToDevice, show ¬ (0 : UInt8) = CR by decide]
  · intro nl hnl nl' _
    exact convert_convert hnl s

theorem convert_lines : write [LF] [0x61, CR, LF, 0x62] = [0x61, LF, 0x62] :=
  (convert_both [LF] [0x61, CR, LF, 0x62] (by decide)).2.1.trans (by decide)

end Poco.LineEndingConverter
