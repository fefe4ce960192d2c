import Poco.MongoDB.Document

/-!
# The format of a BSON document

The bytes from which `Document::read` reads a document, as a relation between documents
and bytes that follows the constructors of values.

## Main definitions

* `Reads`: what the bytes of the format are read as.

## Main results

* `Reads.read`: what has the format is read, with as much fuel as it has bytes.
* `read_takes`: what is read with the stream left good has the format.
-/

namespace Poco.MongoDB

open List BinaryReader

variable (π : Platform) (order : StreamByteOrder)

def int32Of (bs : Bytes) : BitVec 32 := .ofNat 32 (decode π order bs)

def int64Of (bs : Bytes) : BitVec 64 := .ofNat 64 (decode π order bs)

/-- The timestamp that a number of milliseconds is. -/
def timestampOf (value : BitVec 64) : BitVec 64 :=
  value.sdiv 1000 * 1000000 + value.srem 1000 * 1000

inductive Item
  | value (t : ElementType) (v : Value)
  /-- The rest of the elements of a document, from a type byte on: the elements before
  it and the ones after it. -/
  | elements (before after : Document)
  | document (d : Document)

inductive Reads : Item → Bytes → Prop
  | double {bs : Bytes} (h : bs.length = 8) :
    Reads (.value .double (.double (.ofNat 64 (decodeDouble π order bs)))) bs
  | string {size bs : Bytes} (hsize : size.length = 4)
    (hlength : (int32Of π order size).toInt = bs.length) (hne : bs ≠ []) :
    Reads (.value .string (.string bs.dropLast)) (size ++ bs)
  | subdocument {d : Document} {bs : Bytes} (h : Reads (.document d) bs) :
    Reads (.value .document (.document d)) bs
  | array {d : Document} {bs : Bytes} (h : Reads (.document d) bs) :
    Reads (.value .array (.array d)) bs
  | binary {size bs : Bytes} {subtype : UInt8} (hsize : size.length = 4)
    (hlength : (int32Of π order size).toInt = bs.length) :
    Reads (.value .binary (.binary subtype bs)) (size ++ ([subtype] ++ bs))
  | objectId (id : Fin 12 → UInt8) : Reads (.value .objectId (.objectId id)) (List.ofFn id)
  | bool (b : UInt8) : Reads (.value .bool (.bool (b != 0))) [b]
  | timestamp {bs : Bytes} (h : bs.length = 8) :
    Reads (.value .timestamp (.timestamp (timestampOf (int64Of π order bs)))) bs
  | null : Reads (.value .null (.null (some 0))) []
  | regularExpression {p o : Bytes} (hp : 0 ∉ p) (ho : 0 ∉ o) :
    Reads (.value .regularExpression (.regularExpression p o))
      (writeCString p ++ writeCString o)
  | javaScriptCode {size bs : Bytes} (hsize : size.length = 4)
    (hlength : (int32Of π order size).toInt = bs.length) (hne : bs ≠ []) :
    Reads (.value .javaScriptCode (.javaScriptCode bs.dropLast)) (size ++ bs)
  | int32 {bs : Bytes} (h : bs.length = 4) :
    Reads (.value .int32 (.int32 (int32Of π order bs))) bs
  | int64 {bs : Bytes} (h : bs.length = 8) :
    Reads (.value .int64 (.int64 (int64Of π order bs))) bs
  | done (d : Document) : Reads (.elements d d) [0]
  | element {t : ElementType} {name : Name} {v : Value} {d d' : Document}
    {bs rest : Bytes} (hname : 0 ∉ name) (hv : Reads (.value t v) bs)
    (hrest : Reads (.elements (SortedAssoc.insert d name v) d') rest) :
    Reads (.elements d d') (t.typeId :: (writeCString name ++ (bs ++ rest)))
  | document {size bs : Bytes} {d : Document} (hsize : size.length = 4)
    (h : Reads (.elements [] d) bs) : Reads (.document d) (size ++ bs)

/-! ### The readers of the parts -/

theorem scanCString_append (h : 0 ∉ name) (rest : Bytes) :
    scanCString (writeCString name ++ rest) = (name, rest, true) := by
  induction name with
  | nil => rfl
  | cons c cs ih =>
    obtain ⟨hc, hcs⟩ := not_or.mp (mt mem_cons.mpr h)
    rw [writeCString] at ih ⊢
    rw [cons_append, cons_append, scanCString, if_neg (Ne.symm hc), ih hcs]

variable {bs size : Bytes}

theorem eq_append_of_scanCString (h : scanCString bs = (val, rest, true)) :
    0 ∉ val ∧ bs = writeCString val ++ rest := by
  induction bs generalizing val with
  | nil => cases h
  | cons c cs ih =>
    unfold scanCString at h
    split at h
    · next hc =>
      cases h
      exact ⟨not_mem_nil, by rw [hc]; rfl⟩
    next hc =>
    simp only [Prod.mk.injEq] at h
    obtain ⟨rfl, hrest, hfou⟩ := h
    obtain ⟨hval, hcs⟩ := ih (Prod.ext rfl (Prod.ext hrest hfou))
    refine ⟨fun hmem => ?_, congrArg (c :: ·) hcs⟩
    rcases mem_cons.mp hmem with h0 | h0
    · exact hc h0.symm
    · exact hval h0

theorem readCString_yields (h : 0 ∉ name) : Yields readCString name (writeCString name) := by
  intro rest junk
  exact ⟨junk, by simp [readCString, scanCString_append h]⟩

theorem readCString_takes : Takes readCString fun name bs => 0 ∉ name ∧ bs = writeCString name := by
  intro s name s' h hgood
  unfold readCString at h
  split at h
  · next hs =>
    cases h
    have hscan : scanCString s.input = ((scanCString s.input).1, (scanCString s.input).2.1, true) :=
      Prod.ext rfl (Prod.ext rfl hgood)
    obtain ⟨hname, hinp⟩ := eq_append_of_scanCString hscan
    exact ⟨hs, _, hinp, hname, rfl⟩
  · next hs =>
    cases h
    exact absurd hgood hs

theorem readRawLoop_yields (bs : Bytes) : Yields (readRawLoop bs.length) bs bs := by
  induction bs with
  | nil => exact .pure []
  | cons c cs ih =>
    have hc : Yields (istrRead 1 : ReadM _) [c] [c] := istrRead_yields rfl
    exact hc.bind (.of_good (ih.map fun cs => [c] ++ cs))

theorem readRawLoop_takes (n : ℕ) : Takes (readRawLoop n) fun a bs => a = bs ∧ bs.length = n := by
  induction n with
  | zero => exact .pure ⟨rfl, rfl⟩
  | succ n ih =>
    refine (istrRead_takes 1).bind fun c => ?_
    intro s a s' h hgood
    change (if s.good then _ else _ : ReadM _) s = _ at h
    split at h
    · refine (ih.map (Q := fun a cs => ∀ bs, c = bs ∧ bs.length = 1 →
        a = bs ++ cs ∧ (bs ++ cs).length = n + 1) ?_) s a s' h hgood
      rintro a bs ⟨rfl, hlen⟩ bs ⟨rfl, hc⟩
      exact ⟨rfl, by rw [length_append, hlen, hc, Nat.add_comm]⟩
    · next hs =>
      cases h
      exact absurd hgood hs

theorem extractInt32_yields (h : bs.length = 4) :
    Yields (extractInt32 π order) (int32Of π order bs) bs :=
  .uninitialized fun _ hold => (extract_yields (h.trans hold.symm)).map _

theorem extractInt32_takes :
    Takes (extractInt32 π order) fun a bs => bs.length = 4 ∧ a = int32Of π order bs := by
  refine .uninitialized fun old hold => (extract_takes old).map ?_
  rintro a bs ⟨hbs, rfl⟩
  exact ⟨hbs.trans hold, rfl⟩

theorem extractInt64_yields (h : bs.length = 8) :
    Yields (extractInt64 π order) (int64Of π order bs) bs :=
  .uninitialized fun _ hold => (extract_yields (h.trans hold.symm)).map _

theorem extractInt64_takes :
    Takes (extractInt64 π order) fun a bs => bs.length = 8 ∧ a = int64Of π order bs := by
  refine .uninitialized fun old hold => (extract_takes old).map ?_
  rintro a bs ⟨hbs, rfl⟩
  exact ⟨hbs.trans hold, rfl⟩

theorem extractUnsignedChar_yields (b : UInt8) : Yields extractUnsignedChar b [b] :=
  .uninitialized fun _ _ => extractByte_yields _ b

theorem extractUnsignedChar_takes : Takes extractUnsignedChar fun a bs => bs = [a] :=
  .uninitialized fun _ _ => extractByte_takes _

/-! ### The readers of values -/

variable {π order}

theorem readString_yields (hsize : size.length = 4)
    (hlen : (int32Of π order size).toInt = bs.length) (hne : bs ≠ []) :
    Yields (readString π order) bs.dropLast (size ++ bs) := by
  refine (extractInt32_yields π order hsize).bind ?_
  rw [hlen]
  refine (readRawLoop_yields bs).bind_nil ?_
  rw [if_neg hne]
  exact .pure _

theorem readString_takes : Takes (readString π order) fun a cs =>
    ∃ size bs, cs = size ++ bs ∧ size.length = 4 ∧
      (int32Of π order size).toInt = bs.length ∧ bs ≠ [] ∧ a = bs.dropLast := by
  refine (extractInt32_takes π order).bind fun size => ?_
  split
  · exact .throw
  next hsize =>
  refine (readRawLoop_takes _).bind fun value => ?_
  split
  · exact .throw
  · next hne =>
    refine .pure ?_
    rintro bs ⟨rfl, hlen⟩ sizeBytes ⟨hbyt, rfl⟩
    exact ⟨sizeBytes, value, by rw [append_nil], hbyt, by omega, hne, rfl⟩

theorem readDouble_yields (h : bs.length = 8) :
    Yields (readDouble π order) (.ofNat 64 (decodeDouble π order bs)) bs := by
  have hy := (istrRead_yields (ε := Stop) h).map fun bs => BitVec.ofNat 64 (π.load
    (if π.flipBytes order then (π.store 8 0).take (8 - bs.length) ++ bs.reverse
      else bs ++ (π.store 8 0).drop bs.length))
  rw [h, take_zero, drop_of_length_le (by simp), append_nil] at hy
  exact hy

theorem readDouble_takes : Takes (readDouble π order) fun a bs =>
    bs.length = 8 ∧ a = .ofNat 64 (decodeDouble π order bs) := by
  refine (istrRead_takes 8).map ?_
  rintro a bs ⟨rfl, h⟩
  refine ⟨h, ?_⟩
  rw [h, take_zero, drop_of_length_le (by simp), append_nil]
  rfl

theorem readBinary_yields (hsize : size.length = 4)
    (hlen : (int32Of π order size).toInt = bs.length) :
    Yields (readBinary π order) (.binary subtype bs) (size ++ ([subtype] ++ bs)) := by
  refine (extractInt32_yields π order hsize).bind ?_
  rw [hlen, Int.toNat_natCast]
  refine .uninitialized fun buffer hbuf => (extractUnsignedChar_yields subtype).bind ?_
  have hy := (istrRead_yields (ε := Stop) (rfl : bs.length = bs.length)).map fun bs =>
    Value.binary subtype (bs ++ buffer.drop bs.length)
  rwa [drop_of_length_le hbuf.le, append_nil] at hy

theorem readBinary_takes : Takes (readBinary π order) fun a cs =>
    ∃ size subtype bs, cs = size ++ ([subtype] ++ bs) ∧ size.length = 4 ∧
      (int32Of π order size).toInt = bs.length ∧ a = .binary subtype bs := by
  refine (extractInt32_takes π order).bind fun size => ?_
  split
  · exact .throw
  next hsize =>
  refine .uninitialized fun buffer hbuf => extractUnsignedChar_takes.bind fun subtype => ?_
  refine (istrRead_takes _).map ?_
  rintro a bs ⟨rfl, hlen⟩ _ rfl sizeBytes ⟨hbyt, rfl⟩
  refine ⟨sizeBytes, subtype, a, rfl, hbyt, by omega, ?_⟩
  rw [drop_of_length_le (by omega), append_nil]

theorem ofFn_getD (h : bs.length = 12) : List.ofFn (fun i : Fin 12 => bs.getD i 0) = bs := by
  apply List.ext_getElem (by simp [h])
  intro i h₁ h₂
  rw [List.getElem_ofFn, List.getD_eq_getElem?_getD, List.getElem?_eq_getElem h₂]
  rfl

theorem readObjectId_yields (id : Fin 12 → UInt8) : Yields readObjectId id (List.ofFn id) := by
  refine .uninitialized fun old hold => ?_
  have hlen : (List.ofFn id).length = 12 := length_ofFn
  have hy := (istrRead_yields (ε := Stop) hlen).map fun bs =>
    fun i : Fin 12 => (bs ++ old.drop bs.length).getD i 0
  have hid :
      (fun i : Fin 12 => (List.ofFn id ++ old.drop (List.ofFn id).length).getD i 0) = id := by
    rw [List.drop_of_length_le (by simp [hold]), List.append_nil]
    funext i
    have hi : i.val < (List.ofFn id).length := by rw [List.length_ofFn]; exact i.isLt
    rw [List.getD_eq_getElem?_getD, List.getElem?_eq_getElem hi, List.getElem_ofFn]
    rfl
  rwa [hid] at hy

theorem readObjectId_takes : Takes readObjectId fun id bs => bs = List.ofFn id := by
  refine .uninitialized fun old hold => (istrRead_takes 12).map ?_
  rintro a bs ⟨rfl, h⟩
  rw [drop_of_length_le (by omega), append_nil, ofFn_getD h]

theorem readTimestamp_yields (h : bs.length = 8) :
    Yields (readTimestamp π order) (timestampOf (int64Of π order bs)) bs :=
  (extractInt64_yields π order h).map _

theorem readTimestamp_takes : Takes (readTimestamp π order) fun a bs =>
    bs.length = 8 ∧ a = timestampOf (int64Of π order bs) := by
  refine (extractInt64_takes π order).map ?_
  rintro a bs ⟨h, rfl⟩
  exact ⟨h, rfl⟩

theorem readHeader_yields {type : UInt8} (h : size.length = 4) :
    Yields (readHeader π order) type (size ++ [type]) :=
  (extractInt32_yields π order h).bind (extractUnsignedChar_yields type)

theorem readHeader_takes : Takes (readHeader π order) fun type bs =>
    ∃ size, size.length = 4 ∧ bs = size ++ [type] := by
  refine (extractInt32_takes π order).bind fun _ => extractUnsignedChar_takes.mono ?_
  rintro type _ rfl size ⟨h, -⟩
  exact ⟨size, h, rfl⟩

/-! ### What has the format is read -/

theorem readElements_zero (fuel : ℕ) (d : Document) :
    readElements π order (fuel + 1) 0 d = pure d := by
  rw [readElements, if_pos rfl]

theorem readElements_typeId (fuel : ℕ) (t : ElementType) (d : Document) :
    readElements π order (fuel + 1) t.typeId d =
      readCString >>= fun name =>
      readValue π order (Document.read π order fuel) t >>= fun value =>
      extractByte t.typeId >>= fun type' =>
      readElements π order fuel type' (SortedAssoc.insert d name value) := by
  rw [readElements, if_neg t.typeId_ne_zero, ElementType.ofTypeId_typeId]
  rfl

/-- The elements begin with a type byte, which is read before the loop. -/
theorem Reads.exists_type {before after : Document}
    (h : Reads π order (.elements before after) bs) :
    ∃ type rest, bs = type :: rest := by
  cases h with
  | done | element => exact ⟨_, _, rfl⟩

def Item.Read (π : Platform) (order : StreamByteOrder) (bs : Bytes) : Item → Prop
  | .value t v => ∀ fuel ≥ bs.length,
    Yields (readValue π order (Document.read π order fuel) t) v bs
  | .elements before after => ∀ fuel ≥ bs.length, ∀ type rest, bs = type :: rest →
    Yields (readElements π order fuel type before) after rest
  | .document d => ∀ fuel ≥ bs.length, Yields (Document.read π order fuel) d bs

theorem Reads.read (h : Reads π order i bs) : i.Read π order bs := by
  induction h with
  | double h => exact fun _ _ => (readDouble_yields h).map _
  | string hsize hlen hne => exact fun _ _ => (readString_yields hsize hlen hne).map _
  | subdocument _ ih | array _ ih => exact fun fuel hfuel => (ih fuel hfuel).map _
  | binary hsize hlen => exact fun _ _ => readBinary_yields hsize hlen
  | objectId id => exact fun _ _ => (readObjectId_yields id).map _
  | bool b => exact fun _ _ => (extractUnsignedChar_yields b).map _
  | timestamp h => exact fun _ _ => (readTimestamp_yields h).map _
  | null => exact fun _ _ => .pure _
  | regularExpression hp ho =>
    exact fun _ _ => (readCString_yields hp).bind ((readCString_yields ho).map _)
  | javaScriptCode hsize hlen hne =>
    exact fun _ _ => (readString_yields hsize hlen hne).map _
  | int32 h | int64 h => exact fun _ _ => (extract_yields (by simpa using h)).map _
  | done d =>
    rintro fuel hfuel _ _ ⟨⟩
    obtain ⟨fuel, rfl⟩ := Nat.exists_eq_succ_of_ne_zero (Nat.one_le_iff_ne_zero.mp hfuel)
    rw [readElements_zero]
    exact .pure d
  | @element t name v d d' bs rest hname hv hrest ihv ihrest =>
    rintro fuel hfuel _ _ ⟨⟩
    obtain ⟨type, rest, rfl⟩ := hrest.exists_type
    simp only [writeCString, length_cons, length_append] at hfuel
    -- one unit of fuel is for this round, the bytes before the next type byte pay for it
    obtain ⟨fuel, rfl⟩ : ∃ n, fuel = n + 1 := ⟨fuel - 1, by omega⟩
    rw [readElements_typeId]
    refine (readCString_yields hname).bind ((ihv fuel (by omega)).bind ?_)
    refine (extractByte_yields t.typeId type).bind ?_
    exact ihrest fuel (by simp; omega) type rest rfl
  | document hsize h ih =>
    intro fuel hfuel
    obtain ⟨type, rest, rfl⟩ := h.exists_type
    rw [length_append] at hfuel
    rw [← singleton_append, ← append_assoc]
    exact (readHeader_yields hsize).bind (ih fuel (by omega) type rest rfl)

/-! ### What is read has the format -/

theorem readValue_takes {nested : ReadM Document}
    (hnes : Takes nested fun d bs => Reads π order (.document d) bs) (t : ElementType) :
    Takes (readValue π order nested t) fun v bs => Reads π order (.value t v) bs := by
  cases t with
  | double =>
    refine readDouble_takes.map ?_
    rintro _ bs ⟨h, rfl⟩
    exact .double h
  | string | javaScriptCode =>
    refine readString_takes.map ?_
    rintro _ _ ⟨size, bs, rfl, hsize, hlen, hne, rfl⟩
    constructor <;> assumption
  | document => exact hnes.map fun _ _ => .subdocument
  | array => exact hnes.map fun _ _ => .array
  | binary =>
    refine readBinary_takes.mono ?_
    rintro _ _ ⟨size, subtype, bs, rfl, hsize, hlen, rfl⟩
    exact .binary hsize hlen
  | objectId =>
    refine readObjectId_takes.map ?_
    rintro id _ rfl
    exact .objectId id
  | bool =>
    refine extractUnsignedChar_takes.map ?_
    rintro b _ rfl
    exact .bool b
  | timestamp =>
    refine readTimestamp_takes.map ?_
    rintro _ bs ⟨h, rfl⟩
    exact .timestamp h
  | null => exact .pure .null
  | regularExpression =>
    refine readCString_takes.bind fun p => readCString_takes.map ?_
    rintro o _ ⟨ho, rfl⟩ _ ⟨hp, rfl⟩
    exact .regularExpression hp ho
  | int32 | int64 =>
    refine (extract_takes _).map ?_
    rintro _ bs ⟨h, rfl⟩
    constructor
    simpa using h

theorem readElements_takes (fuel : ℕ) (type : UInt8) (d : Document) :
    Takes (readElements π order fuel type d) fun d' bs =>
      Reads π order (.elements d d') (type :: bs) := by
  induction fuel generalizing type d with
  | zero => exact .throw
  | succ fuel ih =>
    rcases ElementType.typeId_cases type with rfl | ⟨htype, ht⟩ | ⟨t, rfl⟩
    · rw [readElements_zero]
      exact .pure (.done d)
    · rw [readElements, if_neg htype, ht]
      exact readCString_takes.bind fun _ => .throw
    have hnes : Takes (Document.read π order fuel) fun d bs =>
        Reads π order (.document d) bs := by
      refine readHeader_takes.bind fun type => (ih type []).mono ?_
      rintro d bs h _ ⟨size, hsize, rfl⟩
      rw [append_assoc]
      exact .document hsize h
    rw [readElements_typeId]
    refine readCString_takes.bind fun name => (readValue_takes hnes t).bind fun v => ?_
    refine (extractByte_takes _).bind fun type' => (ih type' _).mono ?_
    rintro d' rest hrest _ rfl bs hv _ ⟨hname, rfl⟩
    exact .element hname hv hrest

theorem read_takes (fuel : ℕ) :
    Takes (Document.read π order fuel) fun d bs => Reads π order (.document d) bs := by
  refine readHeader_takes.bind fun type => (readElements_takes fuel type []).mono ?_
  rintro d bs h _ ⟨size, hsize, rfl⟩
  rw [append_assoc]
  exact .document hsize h

end Poco.MongoDB
