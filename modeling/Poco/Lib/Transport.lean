import Poco.Lib.Bytes

/-!
# Byte streams that arrive in segments

The receiving end of a stream connection.  The peer sends a sequence of bytes; how many
of them one call delivers is up to the network, between one byte and the number asked for.

## Main definitions

* `Transport`: the bytes that a connection still delivers.  The call number `i` from now on
  delivers at most `sizes i + 1` of them.
* `Transport.receive`: a call that asks for at most `n` bytes; the empty list marks the end.

## Main results

* `Transport.receiveAll_eq`: messages that are each received whatever follows them are received
  one after another.
-/

structure Transport where
  incoming : Bytes
  sizes : ℕ → ℕ

namespace Transport

def receive (t : Transport) (n : ℕ) : Bytes × Transport :=
  let k := min n (t.sizes 0 + 1)
  (t.incoming.take k, ⟨t.incoming.drop k, fun i => t.sizes (i + 1)⟩)

variable (t : Transport) (n : ℕ)

theorem receive_append : (t.receive n).1 ++ (t.receive n).2.incoming = t.incoming :=
  List.take_append_drop _ _

theorem length_receive_le : (t.receive n).1.length ≤ n := by
  simp only [receive, List.length_take]
  omega

theorem receive_snd : (t.receive n).2.incoming = t.incoming.drop (t.receive n).1.length := by
  conv_rhs => rw [← receive_append t n]
  rw [List.drop_left' rfl]

variable {t n}

theorem receive_ne_nil (h : t.incoming ≠ []) (hn : 0 < n) : (t.receive n).1 ≠ [] := by
  have hlen := List.length_pos_iff.mpr h
  rw [← List.length_pos_iff]
  simp only [receive, List.length_take]
  omega

/-! ### Messages one after another -/

section Messages

variable {σ α μ π : Type*}

def receiveAll (receive : π → σ → α × σ) : List π → σ → List α × σ
  | [], s => ([], s)
  | p :: ps, s =>
    let (a, s') := receive p s
    let (as, s'') := receiveAll receive ps s'
    (a :: as, s'')

theorem receiveAll_eq {receive : π → σ → α × σ} {left : σ → Bytes} {arg : μ → π}
    {text : μ → Bytes} {val : μ → α}
    (h : ∀ m s rest, left s = text m ++ rest →
      (receive (arg m) s).1 = val m ∧ left (receive (arg m) s).2 = rest) :
    ∀ {ms : List μ} {s : σ} {rest : Bytes}, left s = ms.flatMap text ++ rest →
      (receiveAll receive (ms.map arg) s).1 = ms.map val ∧
        left (receiveAll receive (ms.map arg) s).2 = rest := by
  intro ms
  induction ms with
  | nil =>
    intro s rest hs
    exact ⟨rfl, hs⟩
  | cons m ms ih =>
    intro s rest hs
    rw [List.flatMap_cons, List.append_assoc] at hs
    obtain ⟨hval, hleft⟩ := h m s _ hs
    obtain ⟨hvals, hrest⟩ := ih hleft
    exact ⟨congrArg₂ List.cons hval hvals, hrest⟩

end Messages

end Transport
