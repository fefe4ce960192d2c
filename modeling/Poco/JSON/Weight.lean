import Poco.JSON.Grammar
import Poco.JSON.Tree

/-!
# Weights

A count on which the reading of a text can be compared with its writing: a backslash, a
hexadecimal digit and the trailing bytes of a multi-byte sequence count.  A tree has the weight of
the text that its leaves need at least: a control character in a string, for instance, needs a
backslash, and five characters that count if it needs a unicode escape.

## Main definitions

* `supply`, `demand`: what the characters of a text contribute, and what those of a string need.
* `Written`: a well-formed text that is not heavier than `n`, and lighter unless `P` holds.

## Main results

* `Var.written`: the text of a tree is not heavier than the tree, and lighter unless the tree is
  read back without a change: a key has a character that should have been escaped, or a string a
  null byte.
-/

namespace Poco.JSON

open Grammar Stringifier List

/-! ### The weight of a character -/

def supplyByte (c : UInt8) : ℕ :=
  if c = 0x5C ∨ isHexDigit c then 1 else if 0x80 ≤ c ∧ c < 0xC0 then 2 else 0

def demandByte (c : UInt8) : ℕ :=
  if c = 0x22 ∨ c = 0x09 ∨ c = 0x0A ∨ c = 0x0D then 1
  else if c = 0x5C ∨ c = 0x08 ∨ c = 0x0C then 2
  -- a unicode escape
  else if c < 0x20 then 5
  else supplyByte c

def supply (s : Bytes) : ℕ := (s.map supplyByte).sum

def demand (s : Bytes) : ℕ := (s.map demandByte).sum

@[simp] theorem supply_nil : supply [] = 0 := rfl

@[simp] theorem supply_cons (c : UInt8) (s : Bytes) :
    supply (c :: s) = supplyByte c + supply s := by
  simp [supply]

@[simp] theorem supply_append (s t : Bytes) : supply (s ++ t) = supply s + supply t := by
  simp [supply]

@[simp] theorem demand_nil : demand [] = 0 := rfl

@[simp] theorem demand_cons (c : UInt8) (s : Bytes) :
    demand (c :: s) = demandByte c + demand s := by
  simp [demand]

@[simp] theorem demand_append (s t : Bytes) : demand (s ++ t) = demand s + demand t := by
  simp [demand]

variable {s : Bytes} {n : ℕ} {P : Prop}

theorem supply_eq_zero (h : ∀ c ∈ s, supplyByte c = 0) : supply s = 0 := by
  simpa [supply, sum_eq_zero_iff] using h

theorem demandByte_raw : ∀ c : UInt8, 0x80 ≤ c → demandByte c = supplyByte c := by decide

theorem demand_raw (h : ∀ c ∈ s, 0x80 ≤ c) : demand s = supply s := by
  exact congrArg sum (map_congr_left fun c hc => demandByte_raw c (h c hc))

/-! ### The weight of a tree -/

variable {D : Type}

mutual

def Var.demand : Var D → ℕ
  | .null => 0
  | .bool b => if b then 1 else 3
  | .int v => supply (NumberFormatter.format v)
  | .float _ => 0
  | .string s => JSON.demand s
  | .array vs => elementsDemand vs
  | .object ms => membersDemand ms

def elementsDemand : List (Var D) → ℕ
  | [] => 0
  | v :: vs => v.demand + elementsDemand vs

def membersDemand : List (Bytes × Var D) → ℕ
  | [] => 0
  | (k, v) :: ms => demand k + v.demand + membersDemand ms

end

/-! ### What is written -/

structure Written (s : Bytes) (n : ℕ) (P : Prop) : Prop where
  wellFormed : Utf8.WellFormed s
  le : supply s ≤ n
  plain : n ≤ supply s → P

theorem Written.append (h : Written s m P) (h' : Written t n Q) :
    Written (s ++ t) (m + n) (P ∧ Q) := by
  refine ⟨h.wellFormed.append h'.wellFormed, ?_, ?_⟩
  · rw [supply_append]
    exact add_le_add h.le h'.le
  · intro hle
    rw [supply_append] at hle
    have hs := h.le
    have ht := h'.le
    exact ⟨h.plain (by omega), h'.plain (by omega)⟩

theorem Written.of_eq {t : Bytes} {m : ℕ} {Q : Prop} (h : Written s m P) (hs : s = t)
    (hn : m = n) (hP : P → Q) : Written t n Q :=
  hs ▸ hn ▸ ⟨h.wellFormed, h.le, fun hle => hP (h.plain hle)⟩

theorem written_light (h : ∀ c ∈ s, c < 0x80 ∧ supplyByte c = 0) : Written s 0 True :=
  ⟨.of_ascii fun c hc => (h c hc).1, (supply_eq_zero fun c hc => (h c hc).2).le, fun _ => trivial⟩

theorem written_spaces (n : UInt32) : Written (spaces n) 0 True := by
  refine written_light fun c hc => ?_
  rw [eq_of_mem_replicate hc]
  decide

theorem written_newline (b : Bool) : Written (newline b) 0 True := by
  cases b <;> exact written_light (by decide)

theorem written_key (hk : Utf8.WellFormed k) : Written k (demand k) (PlainKey k) := by
  have key : ∀ c : UInt8, supplyByte c ≤ demandByte c ∧
      (demandByte c ≤ supplyByte c → 0x20 ≤ c ∧ c ≠ 0x22 ∧ c ≠ 0x5C) := by decide
  have hle : supply k ≤ demand k ∧ (demand k ≤ supply k → PlainKey k) := by
    clear hk
    induction k with
    | nil => exact ⟨le_rfl, fun _ => nofun⟩
    | cons c k ih =>
      have hc := key c
      simp only [supply_cons, demand_cons]
      refine ⟨add_le_add hc.1 ih.1, fun hle x hx => ?_⟩
      rcases mem_cons.mp hx with rfl | hx
      · exact hc.2 (by omega)
      · exact ih.2 (by omega) x hx
  exact ⟨hk, hle.1, hle.2⟩

/-- A character of a string is written with its weight, except for the null byte. -/
theorem supply_formatChar : ∀ c : UInt8, supply (formatChar c) ≤ demandByte c ∧
    (demandByte c ≤ supply (formatChar c) → c ≠ 0) ∧
    (c < 0x80 → ∀ x ∈ formatChar c, x < 0x80) := by decide

theorem wellFormed_flatMap_formatChar (hs : Utf8.WellFormed s) :
    Utf8.WellFormed (s.flatMap formatChar) := by
  induction hs with
  | nil => exact .nil
  | @ascii c s hc _ ih =>
    exact (Utf8.WellFormed.of_ascii ((supply_formatChar c).2.2 hc)).append ih
  | @seq bs s hbs _ ih =>
    rw [flatMap_append, flatMap_formatChar_raw (Utf8.le_of_mem_isSeq hbs)]
    exact .seq hbs ih

theorem written_formatString (hs : Utf8.WellFormed s) :
    Written (formatString s) (demand s) (0 ∉ s) := by
  have hle : supply (s.flatMap formatChar) ≤ demand s ∧
      (demand s ≤ supply (s.flatMap formatChar) → 0 ∉ s) := by
    clear hs
    induction s with
    | nil => exact ⟨le_rfl, fun _ => not_mem_nil⟩
    | cons c s ih =>
      have hc := supply_formatChar c
      simp only [flatMap_cons, supply_append, demand_cons, mem_cons, not_or]
      exact ⟨add_le_add hc.1 ih.1, fun hle => ⟨(hc.2.1 (by omega)).symm, ih.2 (by omega)⟩⟩
  have hchs : Written (s.flatMap formatChar) (demand s) (0 ∉ s) :=
    ⟨wellFormed_flatMap_formatChar hs, hle.1, hle.2⟩
  have hqt : Written [0x22] 0 True := written_light (by decide)
  exact ((hqt.append hchs).append hqt).of_eq rfl (by simp) fun h => h.1.2

theorem written_ascii (h : ∀ c ∈ s, c < 0x80) : Written s (supply s) True :=
  ⟨.of_ascii h, le_rfl, fun _ => trivial⟩

theorem written_format (v : ℤ) :
    Written (NumberFormatter.format v) (supply (NumberFormatter.format v)) True := by
  refine written_ascii ?_
  obtain ⟨ds, hds, hdec⟩ := NumberFormatter.format_eq v
  have key : ∀ c : UInt8, isDecDigit c = true → c < 0x80 := by decide
  rw [hds]
  intro c hc
  rcases mem_append.mp hc with hc | hc
  · split at hc
    · rw [mem_singleton.mp hc]
      decide
    · cases hc
  · exact key c (hdec.digits c hc)

variable [DoubleToStr D]

theorem Array.written_bracket {loop : UInt32 → Int32 → Bytes}
    (h : ∀ indent step, Written (loop indent step) n P) (indent : UInt32) (step : Int32) :
    Written (Array.bracket loop indent step) n P := by
  unfold bracket
  generalize (if step = -1 then indent.toInt32 else step) = step
  have hopen : Written [0x5B] 0 True := written_light (by decide)
  have hcls : Written [0x5D] 0 True := written_light (by decide)
  exact (((((hopen.append (written_newline _)).append (h indent step)).append
    (written_newline _)).append (written_spaces _)).append hcls).of_eq rfl (by simp)
    fun h => h.1.1.1.2

theorem Object.written_bracket {loop : UInt32 → UInt32 → Bytes}
    (h : ∀ indent step, Written (loop indent step) n P) (indent : UInt32) (step : Int32) :
    Written (Object.bracket loop indent step) n P := by
  unfold bracket
  dsimp only
  generalize (if step < 0 then indent.toInt32 else step).toUInt32 = step
  have hopen : Written [0x7B] 0 True := written_light (by decide)
  have hcls : Written [0x7D] 0 True := written_light (by decide)
  exact ((((hopen.append (written_newline _)).append (h indent step)).append
    (written_spaces _)).append hcls).of_eq rfl (by simp) fun h => h.1.1.2

mutual

theorem Var.written : ∀ (x : Var D), x.All jsonLeaves → ∀ (indent : UInt32) (step : Int32),
    Written (Stringifier.stringify x indent step) x.demand (x.All plainText)
  | .null, _, _, _ => written_ascii (s := [0x6E, 0x75, 0x6C, 0x6C]) (by decide)
  | .bool true, _, _, _ => written_ascii (s := [0x74, 0x72, 0x75, 0x65]) (by decide)
  | .bool false, _, _, _ => written_ascii (s := [0x66, 0x61, 0x6C, 0x73, 0x65]) (by decide)
  | .int v, _, _, _ => written_format v
  | .float _, hd, _, _ => hd.elim
  | .string _, hs, _, _ => written_formatString hs
  | .array vs, hl, indent, step => Array.written_bracket (Array.written_loop vs hl) indent _
  | .object ms, hl, indent, step => Object.written_bracket (Object.written_loop ms hl) indent _

theorem Array.written_loop : ∀ (vs : List (Var D)), AllElements jsonLeaves vs →
    ∀ (indent : UInt32) (step : Int32),
      Written (Array.loop vs indent step) (elementsDemand vs) (AllElements plainText vs)
  | [], _, _, _ => ⟨.nil, le_rfl, fun _ => trivial⟩
  | v :: vs, hl, indent, step => by
    have hcma : Written (if vs.isEmpty then [] else [0x2C] ++ newline (step > 0)) 0 True := by
      split
      · exact written_light nofun
      · exact ((written_light (by decide)).append (written_newline _)).of_eq rfl rfl
          fun _ => trivial
    have hv := Var.written v hl.1 (indent + step.toUInt32) step
    have hvs := Array.written_loop vs hl.2 indent step
    exact ((((written_spaces indent).append hv).append hcma).append hvs).of_eq rfl
      (by simp [elementsDemand]) fun h => ⟨h.1.1.2, h.2⟩

theorem Object.written_loop : ∀ (ms : List (Bytes × Var D)), AllMembers jsonLeaves ms →
    ∀ (indent step : UInt32),
      Written (Object.loop ms indent step) (membersDemand ms) (AllMembers plainText ms)
  | [], _, _, _ => ⟨.nil, le_rfl, fun _ => trivial⟩
  | (k, v) :: ms, hl, indent, step => by
    have hqt : Written [0x22] 0 True := written_light (by decide)
    have hkey := (hqt.append (written_key hl.1)).append hqt
    have hcol : Written (if indent > 0 then [0x20, 0x3A, 0x20] else [0x3A]) 0 True := by
      split <;> exact written_light (by decide)
    have hcma : Written ((if ms.isEmpty then [] else [0x2C]) ++ newline (step > 0)) 0
        (True ∧ True) := by
      refine Written.append (m := 0) (n := 0) ?_ (written_newline _)
      split <;> exact written_light (by decide)
    have hv := Var.written v hl.2.1 (indent + step) step.toInt32
    have hms := Object.written_loop ms hl.2.2 indent step
    exact ((((((written_spaces indent).append hkey).append hcol).append hv).append hcma).append
      hms).of_eq rfl (by simp [membersDemand]) fun h => ⟨h.1.1.1.1.2.1.2, h.1.1.2, h.2⟩

end

theorem Tree.written (t : Tree D) (indent : UInt32) (step : Int32) :
    Written (t.root.stringify indent step) t.root.toVar.demand (t.root.toVar.All plainText) := by
  obtain ⟨root, -, hl⟩ := t
  cases root with
  | array vs => exact Array.written_bracket (Array.written_loop vs hl) indent step
  | object ms => exact Object.written_bracket (Object.written_loop ms hl) indent step

end Poco.JSON
