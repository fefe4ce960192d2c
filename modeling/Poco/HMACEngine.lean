import Poco.Lib.Bytes

/-!
# Message authentication

`HMACEngine` of `Foundation/include/Poco/HMACEngine.h`, over any digest engine.  What is
assumed of the engine is what a hash function streamed by `update` and ended by `digest`
does: the digest is that of the bytes since the last `reset` or `digest`.  `digest` returns
a reference to a vector of the engine, which neither `reset` nor `update` touches, as in
`MD5Engine` and `SHA1Engine`.

## Main definitions

* `DigestEngine`: a digest engine whose states are of type `σ`.
* `authenticate`: messages are authenticated one after the other, each given in pieces.
* `hmac`: the authentication code of a message.

## Main results

* `authenticate_init`: every message gets the code of RFC 2104.
-/

namespace Poco

open List

structure DigestEngine (σ : Type*) where
  BLOCK_SIZE : ℕ
  DIGEST_SIZE : ℕ
  reset : σ → σ
  update : σ → Bytes → σ
  digest : σ → σ
  /-- The vector that the reference returned by `digest` refers to. -/
  result : σ → Bytes
  hash : Bytes → Bytes
  /-- The bytes since the last `reset` or `digest`. -/
  seen : σ → Bytes
  seen_reset : ∀ s, seen (reset s) = []
  seen_update : ∀ s data, seen (update s data) = seen s ++ data
  result_digest : ∀ s, result (digest s) = hash (seen s)
  result_reset : ∀ s, result (reset s) = result s
  result_update : ∀ s data, result (update s data) = result s
  length_hash : ∀ m, (hash m).length = DIGEST_SIZE
  size_le : DIGEST_SIZE ≤ BLOCK_SIZE

structure HMACEngine (σ : Type*) where
  engine : σ
  ipad : Bytes
  opad : Bytes

namespace HMACEngine

variable {σ : Type*} (E : DigestEngine σ)

def reset (s : HMACEngine σ) : HMACEngine σ :=
  { s with engine := E.update (E.reset s.engine) s.ipad }

/-- Bytes copied to the front of a block of zeros, as many as there is room for. -/
def block (bs : Bytes) : Bytes :=
  bs.take E.BLOCK_SIZE ++ replicate (E.BLOCK_SIZE - bs.length) 0

def init (engine : σ) (passphrase : Bytes) : HMACEngine σ :=
  let engine := if passphrase.length > E.BLOCK_SIZE then
    E.digest (E.update (E.reset engine) passphrase) else engine
  let pad := block E (if passphrase.length > E.BLOCK_SIZE then E.result engine else passphrase)
  reset E ⟨engine, pad.map (· ^^^ 0x36), pad.map (· ^^^ 0x5c)⟩

def updateImpl (s : HMACEngine σ) (data : Bytes) : HMACEngine σ :=
  { s with engine := E.update s.engine data }

/-- `HMACEngine::digest`; what the reference it returns refers to is read at the end. -/
def digest (s : HMACEngine σ) : HMACEngine σ × Bytes :=
  let engine := E.digest s.engine
  let db := (E.result engine).take E.DIGEST_SIZE
  let engine := E.digest (E.update (E.update (E.reset engine) s.opad) db)
  let s := reset E { s with engine := engine }
  (s, E.result s.engine)

def authenticate (s : HMACEngine σ) : List (List Bytes) → List Bytes
  | [] => []
  | pieces :: messages =>
    let r := digest E (pieces.foldl (updateImpl E) s)
    r.2 :: authenticate r.1 messages

/-! ### The code of RFC 2104 -/

/-- The key padded with zeros to the size of a block, or its hash if it is longer. -/
def key (passphrase : Bytes) : Bytes :=
  let k := if passphrase.length > E.BLOCK_SIZE then E.hash passphrase else passphrase
  k ++ replicate (E.BLOCK_SIZE - k.length) 0

def hmac (passphrase message : Bytes) : Bytes :=
  E.hash ((key E passphrase).map (· ^^^ 0x5c) ++
    E.hash ((key E passphrase).map (· ^^^ 0x36) ++ message))

/-- An engine that is ready for a message: it has seen the inner pad. -/
structure Ready (passphrase : Bytes) (s : HMACEngine σ) : Prop where
  ipad : s.ipad = (key E passphrase).map (· ^^^ 0x36)
  opad : s.opad = (key E passphrase).map (· ^^^ 0x5c)
  seen : E.seen s.engine = s.ipad

variable {E} {passphrase : Bytes}

theorem seen_reset (s : HMACEngine σ) : E.seen (reset E s).engine = s.ipad := by
  rw [reset, E.seen_update, E.seen_reset, nil_append]

theorem block_of_length_le (h : bs.length ≤ E.BLOCK_SIZE) :
    block E bs = bs ++ replicate (E.BLOCK_SIZE - bs.length) 0 := by
  rw [block, take_of_length_le h]

theorem ready_init (engine : σ) (passphrase : Bytes) :
    Ready E passphrase (init E engine passphrase) := by
  refine ⟨?_, ?_, seen_reset _⟩
  all_goals
    simp only [init, reset, key]
    split_ifs with h
    · rw [E.result_digest, E.seen_update, E.seen_reset, nil_append,
        block_of_length_le (by rw [E.length_hash]; exact E.size_le)]
    · rw [block_of_length_le (Nat.le_of_not_lt h)]

theorem foldl_updateImpl (pieces : List Bytes) (s : HMACEngine σ) :
    ∃ engine, pieces.foldl (updateImpl E) s = { s with engine := engine } ∧
      E.seen engine = E.seen s.engine ++ pieces.flatten := by
  induction pieces generalizing s with
  | nil => exact ⟨s.engine, rfl, by rw [flatten_nil, append_nil]⟩
  | cons data pieces ih =>
    obtain ⟨engine, hfold, hseen⟩ := ih (updateImpl E s data)
    exact ⟨engine, hfold, by rw [hseen, updateImpl, E.seen_update, flatten_cons, append_assoc]⟩

theorem Ready.digest (h : Ready E passphrase s) (pieces : List Bytes) :
    (digest E (pieces.foldl (updateImpl E) s)).2 = hmac E passphrase pieces.flatten ∧
      Ready E passphrase (digest E (pieces.foldl (updateImpl E) s)).1 := by
  obtain ⟨engine, hfold, hseen⟩ := foldl_updateImpl pieces s
  rw [hfold]
  refine ⟨?_, h.ipad, h.opad, seen_reset _⟩
  have htake : (E.hash (E.seen engine)).take E.DIGEST_SIZE = E.hash (E.seen engine) :=
    take_of_length_le (Nat.le_of_eq (E.length_hash _))
  simp only [HMACEngine.digest, reset, E.result_update, E.result_reset, E.result_digest,
    E.seen_update, E.seen_reset, nil_append, htake]
  rw [hseen, h.seen, h.opad, h.ipad, hmac]

/-- **Every message gets the code of RFC 2104**, for any key, however the messages are split
and however many the same engine has authenticated before. -/
theorem authenticate_init (engine : σ) (passphrase : Bytes)
    (messages : List (List Bytes)) :
    authenticate E (init E engine passphrase) messages =
      messages.map fun pieces => hmac E passphrase pieces.flatten := by
  suffices ∀ s, Ready E passphrase s → authenticate E s messages =
      messages.map fun pieces => hmac E passphrase pieces.flatten from
    this _ (ready_init engine passphrase)
  induction messages with
  | nil => exact fun _ _ => rfl
  | cons pieces messages ih =>
    intro s hs
    obtain ⟨hcode, hrdy⟩ := hs.digest pieces
    rw [authenticate, map_cons, ← hcode, ih _ hrdy]

/-- The engine of a checksum: blocks of four bytes, and digests of the sum and the number of the
bytes.  It keeps the bytes since the last `reset` or `digest`, and its vector. -/
def checksumEngine : DigestEngine (Bytes × Bytes) where
  BLOCK_SIZE := 4
  DIGEST_SIZE := 2
  reset s := ([], s.2)
  update s data := (s.1 ++ data, s.2)
  digest s := ([], [s.1.foldl (· + ·) 0, .ofNat s.1.length])
  result := Prod.snd
  hash m := [m.foldl (· + ·) 0, .ofNat m.length]
  seen := Prod.fst
  seen_reset _ := rfl
  seen_update _ _ := rfl
  result_digest _ := rfl
  result_reset _ := rfl
  result_update _ _ := rfl
  length_hash _ := rfl
  size_le := by decide

/-- A key longer than a block, and two messages in pieces. -/
theorem authenticate_init_pieces :
    authenticate checksumEngine (init checksumEngine ([9], []) [1, 2, 3, 4, 5])
      [[[6], [7, 8]], [[], [0xFF]]] = [[88, 6], [64, 6]] :=
  (authenticate_init ([9], []) [1, 2, 3, 4, 5] [[[6], [7, 8]], [[], [0xFF]]]).trans (by decide)

end HMACEngine

end Poco
