import Poco.JSON.Budget
import Poco.JSON.Rereading

/-!
# Writing and reading a tree

If a key is such that its text is no longer the text of the tree, it may still be the text of
another tree; by their weights that tree is never the one that was written.

## Main results

* `parse_stringify_iff`: the trees that are read back as they were.
-/

namespace Poco.JSON

variable {D : Type} [StrToDouble D] [DoubleToStr D]

/-- **The round trip.**  With any indentation, parsing the text of a tree yields an equal
tree if and only if the keys need no escapes, the strings have no null byte, and no integer
is `2^63` or `2^63 + 1`. -/
theorem parse_stringify_iff (t : Tree D) (indent : UInt32) (step : Int32) :
    (∃ q, Parser.parse (t.root.stringify indent step) (Parser.fresh {})
      = .ok (some t.root.toVar) q) ↔
    t.root.toVar.All plainText ∧ t.root.toVar.All unwrapped := by
  constructor
  · rintro ⟨q, hq⟩
    have hw := t.written indent step
    have hpl := hw.plain (Parser.demand_le_of_parse hw.wellFormed hq)
    refine ⟨hpl, (Var.reread_eq_iff _).mp ?_⟩
    obtain ⟨q', hq'⟩ := parse_stringify t hpl indent step
    exact (Option.some.inj (EStateM.Result.ok.inj (hq.symm.trans hq')).1).symm
  · rintro ⟨hpl, hun⟩
    obtain ⟨q, hq⟩ := parse_stringify t hpl indent step
    rw [(Var.reread_eq_iff _).mpr hun] at hq
    exact ⟨q, hq⟩

def quoteKey : Tree Bytes where
  root := .object [([0x22], .null)]
  sorted := ⟨List.pairwise_singleton _ _, trivial, trivial⟩
  leaves := ⟨.of_ascii (by decide), trivial, trivial⟩

def wrappedInteger : Tree Bytes where
  root := .array [.int 9223372036854775808]
  sorted := ⟨trivial, trivial⟩
  leaves := ⟨⟨by decide, by decide⟩, trivial⟩

/-- The text of the first is not even accepted; the second is read as the array of `-2^63`. -/
theorem parse_stringify_differs :
    (¬ ∃ q, Parser.parse (quoteKey.root.stringify 0 (-1)) (Parser.fresh {})
      = .ok (some quoteKey.root.toVar) q) ∧
    ¬ ∃ q, Parser.parse (wrappedInteger.root.stringify 0 (-1)) (Parser.fresh {})
      = .ok (some wrappedInteger.root.toVar) q := by
  constructor
  · rintro ⟨q, h⟩
    cases h
  · rintro ⟨q, h⟩
    obtain ⟨q', h'⟩ := parse_stringify wrappedInteger ⟨trivial, trivial⟩ 0 (-1)
    have heq := Option.some.inj (EStateM.Result.ok.inj (h.symm.trans h')).1
    exact ((Var.reread_eq_iff _).mp heq.symm).1.1 rfl

end Poco.JSON
