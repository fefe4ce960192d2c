import Poco.MongoDB.Format

/-!
# Reading a document that was written

A document is written and read back by a writer and a reader of native byte order.  The
bytes that are written for a binary lack its size, which the reader takes from the first
four of them, and a `NullValue` is read as one that holds a zero, whatever was written.

That nothing with a binary in it is read back is an argument about numbers of bytes: what
is read from the bytes of a document, if it were the document, would take four bytes more
for each binary than there are.

## Main definitions

* `Built`: a document that is built from distinct names without null bytes and values of the
  supported types.
* `RoundTrips`: `Document::read` on the bytes of `Document::write` takes exactly these bytes and
  gives the document; and the bytes of the document and of every document in it are among them,
  with a length field that is their number.

## Main results

* `lengthField_eq_iff`: a length field is right exactly if the number of bytes fits an `Int32`.
* `Reads.of_bytes`: a document that is read from its own bytes has no binary in it, and its null
  values hold zeros.
* `roundTrips_iff`: the documents that are read back.
-/

namespace Poco.MongoDB

open List BinaryReader

/-! ### Documents that are built -/

mutual

/-- The conditions on the names, the regular expressions and the timestamps in a value. -/
def Value.WellFormed : Value → Prop
  | .document elements => SortedAssoc.Sorted elements ∧ elementsWellFormed elements
  | .array elements => SortedAssoc.Sorted elements ∧ elementsWellFormed elements
  | .timestamp ts => ts.srem 1000 = 0
  | .regularExpression pattern options => 0 ∉ pattern ∧ 0 ∉ options
  | _ => True

def elementsWellFormed : Document → Prop
  | [] => True
  | (name, value) :: elements => 0 ∉ name ∧ value.WellFormed ∧ elementsWellFormed elements

end

structure Built where
  document : Document
  /-- Its names are distinct, and so are those of the documents in it. -/
  sorted : SortedAssoc.Sorted document
  /-- The conditions on names and values hold. -/
  wellFormed : elementsWellFormed document

mutual

def Value.binaries : Value → ℕ
  | .document elements => elementsBinaries elements
  | .array elements => elementsBinaries elements
  | .binary .. => 1
  | _ => 0

def elementsBinaries : Document → ℕ
  | [] => 0
  | (_, value) :: elements => value.binaries + elementsBinaries elements

end

mutual

def Value.nulls : Value → List (Option UInt8)
  | .document elements => elementsNulls elements
  | .array elements => elementsNulls elements
  | .null value => [value]
  | _ => []

def elementsNulls : Document → List (Option UInt8)
  | [] => []
  | (_, value) :: elements => value.nulls ++ elementsNulls elements

end

mutual

def Value.documents : Value → List Document
  | .document elements => elements :: elementsDocuments elements
  | .array elements => elements :: elementsDocuments elements
  | _ => []

def elementsDocuments : Document → List Document
  | [] => []
  | (_, value) :: elements => value.documents ++ elementsDocuments elements

end

variable (π : Platform)

/-- `Document::write` on a writer of native byte order. -/
def Document.bytes (d : Document) : Bytes := d.write π .NATIVE_BYTE_ORDER

def lengthField (bs : Bytes) : ℤ := (int32Of π .NATIVE_BYTE_ORDER (bs.take 4)).toInt

def RoundTrips (d : Document) : Prop :=
  (∀ junk, ∃ fuel junk', Document.read π .NATIVE_BYTE_ORDER fuel ⟨d.bytes π, true, junk⟩ =
    .ok d ⟨[], true, junk'⟩) ∧
  ∀ e ∈ d :: elementsDocuments d, e.bytes π <:+: d.bytes π ∧
    lengthField π (e.bytes π) = (e.bytes π).length

/-! ### The bytes of a document -/

theorem bracket_writeElements (order : StreamByteOrder) (d : Document) :
    bracket π order d.isEmpty (writeElements π d) =
      BinaryWriter.writeInt32 π order (.ofNat 32 (5 + (writeElements π d).length)) ++
        (writeElements π d ++ [0]) := by
  cases d with
  | nil => rfl
  | cons e d => simp [bracket]

theorem bytes_eq (d : Document) : d.bytes π =
    BinaryWriter.writeInt32 π .NATIVE_BYTE_ORDER (.ofNat 32 (5 + (writeElements π d).length)) ++
      (writeElements π d ++ [0]) :=
  bracket_writeElements π _ d

theorem length_bytes (d : Document) : (d.bytes π).length = 5 + (writeElements π d).length := by
  simp [bytes_eq]
  omega

@[simp] theorem write_document (d : Document) : (Value.document d).write π = d.bytes π := by
  rfl

@[simp] theorem write_array (d : Document) : (Value.array d).write π = d.bytes π := by
  rfl

theorem toInt_ofNat_of_lt (h : n < 2 ^ 31) : (BitVec.ofNat 32 n).toInt = n := by
  rw [BitVec.toInt_eq_toNat_of_lt]
  · rw [BitVec.toNat_ofNat, Nat.mod_eq_of_lt (by omega)]
  · rw [BitVec.toNat_ofNat]
    omega

theorem lengthField_eq_iff (d : Document) :
    lengthField π (d.bytes π) = (d.bytes π).length ↔ (d.bytes π).length < 2 ^ 31 := by
  have hfie : lengthField π (d.bytes π) = (BitVec.ofNat 32 (d.bytes π).length).toInt := by
    rw [length_bytes, lengthField, bytes_eq, take_append_of_le_length (by simp),
      take_of_length_le (by simp), int32Of, ofNat_decode_writeInt32]
  rw [hfie]
  constructor
  · intro h
    have := BitVec.toInt_lt (x := BitVec.ofNat 32 (d.bytes π).length)
    omega
  · exact toInt_ofNat_of_lt

/-! ### The documents in a document -/

mutual

theorem infix_write (e : Document) : ∀ v : Value, e ∈ v.documents → e.bytes π <:+: v.write π
  | .document d, h | .array d, h => by
    first | rw [write_document] | rw [write_array]
    rcases mem_cons.mp h with rfl | h
    · exact infix_refl _
    · rw [bytes_eq π d]
      exact ((infix_writeElements e d h).trans (prefix_append _ _).isInfix).trans
        (suffix_append _ _).isInfix
  | .double _, h | .string _, h | .binary _ _, h | .objectId _, h | .bool _, h | .timestamp _, h
  | .null _, h | .regularExpression _ _, h | .javaScriptCode _, h | .int32 _, h
  | .int64 _, h => nomatch h

theorem infix_writeElements (e : Document) : ∀ d : Document, e ∈ elementsDocuments d →
    e.bytes π <:+: writeElements π d
  | [], h => nomatch h
  | (name, v) :: d, h => by
    rcases mem_append.mp h with h | h
    · exact ((infix_write e v h).trans (suffix_append _ _).isInfix).trans
        (prefix_append _ _).isInfix
    · exact (infix_writeElements e d h).trans (suffix_append _ _).isInfix

end

/-! ### What is written has the format -/

theorem sdiv_mul_add_srem (x y : BitVec w) : x.sdiv y * y + x.srem y = x := by
  apply BitVec.toInt_inj.mp
  rw [BitVec.toInt_add, BitVec.toInt_mul, BitVec.toInt_sdiv, BitVec.toInt_srem,
    Int.bmod_mul_bmod, Int.bmod_add_bmod, Int.tdiv_mul_add_tmod, BitVec.toInt_bmod_cancel]

/-- A timestamp of whole milliseconds is the one that its milliseconds are read as. -/
theorem timestampOf_sdiv {ts : BitVec 64} (h : ts.srem 1000 = 0) :
    timestampOf (ts.sdiv 1000) = ts := by
  have hmil := sdiv_mul_add_srem (ts.sdiv 1000) 1000
  have hts : ts.sdiv 1000 * 1000 = ts := by
    have hts := sdiv_mul_add_srem ts 1000
    rw [h] at hts
    exact (BitVec.add_zero _).symm.trans hts
  calc timestampOf (ts.sdiv 1000)
      = ((ts.sdiv 1000).sdiv 1000 * 1000 + (ts.sdiv 1000).srem 1000) * 1000 := by
        rw [BitVec.add_mul, BitVec.mul_assoc]
        rfl
    _ = ts := by rw [hmil, hts]

theorem int32Of_writeInt32 (v : BitVec 32) :
    int32Of π .NATIVE_BYTE_ORDER (BinaryWriter.writeInt32 π .NATIVE_BYTE_ORDER v) = v :=
  ofNat_decode_writeInt32 v

theorem int64Of_writeInt64 (v : BitVec 64) :
    int64Of π .NATIVE_BYTE_ORDER (BinaryWriter.writeInt64 π .NATIVE_BYTE_ORDER v) = v :=
  ofNat_decode_writeInt64 v

theorem ofNat_decodeDouble_write (bits : BitVec 64) :
    BitVec.ofNat 64 (decodeDouble π .NATIVE_BYTE_ORDER
      (BinaryWriter.writeInt64 π .NATIVE_BYTE_ORDER bits)) = bits := by
  have h := int64Of_writeInt64 π bits
  rw [int64Of, decode, Platform.flipBytes_native] at h
  rwa [decodeDouble, Platform.flipBytes_native, if_neg Bool.false_ne_true]

/-- The bytes of a string, with what the reader of strings asks of them. -/
theorem writeString_eq (s : Bytes) (h : (writeString π s).length < 2 ^ 31) :
    ∃ size bs, writeString π s = size ++ bs ∧ size.length = 4 ∧
      (int32Of π .NATIVE_BYTE_ORDER size).toInt = bs.length ∧ bs ≠ [] ∧ bs.dropLast = s := by
  have hlen : s.length + 1 < 2 ^ 31 := by
    simp only [writeString, writeCString, length_append, length_cons] at h
    omega
  refine ⟨_, s ++ [0], rfl, by simp, ?_, by simp, dropLast_concat⟩
  rw [int32Of_writeInt32, toInt_ofNat_of_lt hlen]
  simp

/-- What can be read back of a document, as far as its elements decide it. -/
structure Readable (d : Document) : Prop where
  sorted : SortedAssoc.Sorted d
  /-- Names, regular expressions and timestamps are as they should be. -/
  wellFormed : elementsWellFormed d
  binaries : elementsBinaries d = 0
  nulls : ∀ n ∈ elementsNulls d, n = some 0

variable {d : Document} {bs : Bytes}

theorem Readable.head (h : Readable ((name, v) :: d)) :
    0 ∉ name ∧ v.WellFormed ∧ v.binaries = 0 ∧ ∀ n ∈ v.nulls, n = some 0 := by
  have hb := h.binaries
  rw [elementsBinaries] at hb
  refine ⟨h.wellFormed.1, h.wellFormed.2.1, by omega, fun n hn => h.nulls n ?_⟩
  exact mem_append_left _ hn

theorem Readable.tail {e : Name × Value} (h : Readable (e :: d)) : Readable d := by
  have hb := h.binaries
  rw [elementsBinaries] at hb
  refine ⟨h.sorted.of_cons, h.wellFormed.2.2, by omega, fun n hn => h.nulls n ?_⟩
  exact mem_append_right _ hn

mutual

theorem reads_write : ∀ v : Value, v.WellFormed → v.binaries = 0 →
    (∀ n ∈ v.nulls, n = some 0) → (v.write π).length < 2 ^ 31 →
    Reads π .NATIVE_BYTE_ORDER (.value v.type v) (v.write π)
  | .double bits, _, _, _, _ => by
    have h : Reads π .NATIVE_BYTE_ORDER _ _ := .double
      (BinaryWriter.length_writeInt64 π .NATIVE_BYTE_ORDER bits)
    rwa [ofNat_decodeDouble_write] at h
  | .string s, _, _, _, hlen | .javaScriptCode s, _, _, _, hlen => by
    rw [Value.write] at hlen ⊢
    obtain ⟨size, bs, heq, hsize, hint, hne, rfl⟩ := writeString_eq π s hlen
    rw [heq]
    constructor <;> assumption
  | .document d, hwf, hb, hn, hlen => by
    exact .subdocument (reads_bytes d ⟨hwf.1, hwf.2, hb, hn⟩ hlen)
  | .array d, hwf, hb, hn, hlen => by
    exact .array (reads_bytes d ⟨hwf.1, hwf.2, hb, hn⟩ hlen)
  | .binary _ _, _, hb, _, _ => nomatch hb
  | .objectId id, _, _, _, _ => .objectId id
  | .bool b, _, _, _, _ => by
    cases b with
    | false => exact .bool 0
    | true => exact .bool 1
  | .timestamp ts, hwf, _, _, _ => by
    have h : Reads π .NATIVE_BYTE_ORDER _ _ := .timestamp
      (BinaryWriter.length_writeInt64 π .NATIVE_BYTE_ORDER (ts.sdiv 1000))
    rwa [int64Of_writeInt64, timestampOf_sdiv hwf] at h
  | .null n, _, _, hn, _ => by
    rw [hn n (by simp [Value.nulls])]
    exact .null
  | .regularExpression p o, hwf, _, _, _ => .regularExpression hwf.1 hwf.2
  | .int32 v, _, _, _, _ => by
    have h : Reads π .NATIVE_BYTE_ORDER _ _ := .int32
      (BinaryWriter.length_writeInt32 π .NATIVE_BYTE_ORDER v)
    rwa [int32Of_writeInt32] at h
  | .int64 v, _, _, _, _ => by
    have h : Reads π .NATIVE_BYTE_ORDER _ _ := .int64
      (BinaryWriter.length_writeInt64 π .NATIVE_BYTE_ORDER v)
    rwa [int64Of_writeInt64] at h

theorem reads_writeElements : ∀ d before : Document, (∀ a ∈ before, ∀ e ∈ d, a.1 < e.1) →
    Readable d → (writeElements π d).length < 2 ^ 31 →
    Reads π .NATIVE_BYTE_ORDER (.elements before (before ++ d)) (writeElements π d ++ [0])
  | [], before, _, _, _ => by
    rw [append_nil]
    exact .done before
  | (name, v) :: d, before, hlt, hd, hlen => by
    obtain ⟨hname, hwf, hb, hn⟩ := hd.head
    have hins : SortedAssoc.insert before name v = before ++ [(name, v)] :=
      SortedAssoc.insert_of_forall_lt before fun a ha => hlt a ha (name, v) (by simp)
    have hlt' : ∀ a ∈ before ++ [(name, v)], ∀ e ∈ d, a.1 < e.1 :=
      forall_mem_append.mpr ⟨fun a ha e he => hlt a ha e (mem_cons_of_mem _ he),
        forall_mem_singleton.mpr fun e he => rel_of_pairwise_cons hd.sorted he⟩
    rw [writeElements, length_append, length_append] at hlen
    have hv := reads_write v hwf hb hn (by omega)
    have hrest := reads_writeElements d (before ++ [(name, v)]) hlt' hd.tail (by omega)
    rw [← hins] at hrest
    have h := Reads.element hname hv hrest
    rw [hins] at h
    simpa [writeElements] using h

theorem reads_bytes : ∀ d : Document, Readable d → (d.bytes π).length < 2 ^ 31 →
    Reads π .NATIVE_BYTE_ORDER (.document d) (d.bytes π)
  | d, hd, hlen => by
    rw [length_bytes] at hlen
    rw [bytes_eq]
    have hele := reads_writeElements d [] (by simp) hd (by omega)
    exact .document (by simp) hele

end

/-! ### The number of bytes that reading takes -/

/-- The number of bytes that reading an element takes. -/
def weight (e : Name × Value) : ℕ :=
  2 + e.1.length + (e.2.write π).length + 4 * e.2.binaries

theorem sum_weight (d : Document) : (d.map (weight π)).sum =
    (writeElements π d).length + 4 * elementsBinaries d := by
  induction d with
  | nil => rfl
  | cons e d ih =>
    rw [map_cons, sum_cons, ih, writeElements, elementsBinaries, weight]
    simp only [writeCString, length_cons, length_append, length_nil]
    omega

/-- The bytes of an item, if it was read, are as many as were written for it and four more
for each binary. -/
def Item.SizeLe (bs : Bytes) : Item → Prop
  | .value _ v => (v.write π).length + 4 * v.binaries ≤ bs.length
  | .elements before after =>
    (after.map (weight π)).sum + 1 ≤ (before.map (weight π)).sum + bs.length
  | .document d => (d.bytes π).length + 4 * elementsBinaries d ≤ bs.length

theorem length_writeString_dropLast (hsize : size.length = 4) (hne : bs ≠ []) :
    (writeString π bs.dropLast).length ≤ (size ++ bs).length := by
  have := length_pos_iff.mpr hne
  simp only [writeString, writeCString, length_append, BinaryWriter.length_writeInt32,
    length_dropLast, length_cons, length_nil]
  omega

variable {π}

theorem Reads.size_le (h : Reads π order i bs) : i.SizeLe π bs := by
  induction h with
  | double h | timestamp h | int32 h | int64 h => simp [Item.SizeLe, Value.write, Value.binaries, h]
  | string hsize _ hne | javaScriptCode hsize _ hne => exact length_writeString_dropLast π hsize hne
  | subdocument _ ih =>
    rw [Item.SizeLe, write_document]
    exact ih
  | array _ ih =>
    rw [Item.SizeLe, write_array]
    exact ih
  | binary hsize _ =>
    simp only [Item.SizeLe, Value.write, Value.binaries, length_append, length_cons,
      length_nil, hsize]
    omega
  | objectId id | bool b | null
  | regularExpression _ _ => simp [Item.SizeLe, Value.write, Value.binaries]
  | done d => exact le_rfl
  | @element t name v d d' bs rest hname hv hrest ihv ihrest =>
    -- an element with a name that is there already is dropped, so this is only a bound
    have hins := SortedAssoc.sum_insert_le (weight π) d name v
    simp only [Item.SizeLe, weight, writeCString, length_cons, length_append, length_nil] at *
    omega
  | document hsize h ih =>
    simp only [Item.SizeLe, map_nil, sum_nil, length_append, length_bytes, hsize, sum_weight] at *
    omega

/-! ### The null values that are read -/

theorem mem_elementsNulls : n ∈ elementsNulls d ↔ ∃ e ∈ d, n ∈ e.2.nulls := by
  induction d with
  | nil => simp [elementsNulls]
  | cons e d ih => simp [elementsNulls, ih]

/-- Every null value of an item holds a zero, if the ones that were there before do. -/
def Item.NullsZero : Item → Prop
  | .value _ v => ∀ n ∈ v.nulls, n = some 0
  | .elements before after =>
    (∀ n ∈ elementsNulls before, n = some 0) → ∀ n ∈ elementsNulls after, n = some 0
  | .document d => ∀ n ∈ elementsNulls d, n = some 0

theorem Reads.nullsZero (h : Reads π order i bs) : i.NullsZero := by
  induction h with
  | subdocument _ ih | array _ ih => exact ih
  | null => simp [Item.NullsZero, Value.nulls]
  | done d => exact fun h => h
  | @element t name v d d' bs rest hname hv hrest ihv ihrest =>
    intro hd
    refine ihrest fun n hn => ?_
    obtain ⟨e, he, hn⟩ := mem_elementsNulls.mp hn
    rcases SortedAssoc.mem_of_mem_insert he with rfl | he
    · exact ihv n hn
    · exact hd n (mem_elementsNulls.mpr ⟨e, he, hn⟩)
  | document _ _ ih => exact ih nofun
  | _ => exact nofun

/-! ### The documents that are read back -/

theorem Reads.of_bytes (h : Reads π order (.document d) (d.bytes π)) :
    elementsBinaries d = 0 ∧ ∀ n ∈ elementsNulls d, n = some 0 := by
  have hsize : (d.bytes π).length + 4 * elementsBinaries d ≤ (d.bytes π).length := h.size_le
  exact ⟨by omega, h.nullsZero⟩

variable (π)

/-- A document built from distinct names without null bytes is read back, with all its
length fields right, exactly if it has no binary in it, its null values hold zeros, and
its size fits into an `Int32`. -/
theorem roundTrips_iff (b : Built) : RoundTrips π b.document ↔
    elementsBinaries b.document = 0 ∧ (∀ n ∈ elementsNulls b.document, n = some 0) ∧
      (b.document.bytes π).length < 2 ^ 31 := by
  constructor
  · rintro ⟨hread, hfie⟩
    obtain ⟨fuel, junk', hread⟩ := hread fun _ => 0
    obtain ⟨-, bs, hbs, hrd⟩ := read_takes fuel _ _ _ hread rfl
    obtain rfl : b.document.bytes π = bs := hbs.trans (append_nil bs)
    obtain ⟨hbin, hnul⟩ := hrd.of_bytes
    obtain ⟨-, hfld⟩ := hfie b.document (mem_cons_self ..)
    exact ⟨hbin, hnul, (lengthField_eq_iff π _).mp hfld⟩
  · rintro ⟨hbin, hnul, hlen⟩
    have hrd := reads_bytes π b.document ⟨b.sorted, b.wellFormed, hbin, hnul⟩ hlen
    refine ⟨fun junk => ?_, fun e he => ?_⟩
    · obtain ⟨junk', hread⟩ := hrd.read _ le_rfl [] junk
      rw [append_nil] at hread
      exact ⟨_, junk', hread⟩
    have hpart : e.bytes π <:+: b.document.bytes π := by
      rcases mem_cons.mp he with rfl | he
      · exact infix_refl _
      · have h := infix_write π e (.document b.document) (mem_cons_of_mem _ he)
        rwa [write_document] at h
    exact ⟨hpart, (lengthField_eq_iff π e).mpr (hpart.length_le.trans_lt hlen)⟩

def nestedDocument : Built where
  document := [
    ([0x61], .document [([0x62], .array [([0x30], .int32 7), ([0x31], .null (some 0))])]),
    ([0x63], .string [0x64])]
  sorted := by decide
  wellFormed := by
    simp only [elementsWellFormed, Value.WellFormed, and_true, true_and]
    decide

theorem roundTrips_nested : RoundTrips .amd64 nestedDocument.document :=
  (roundTrips_iff .amd64 nestedDocument).mpr
    ⟨by decide, fun _ hn => mem_singleton.mp hn, by decide⟩

def binaryDocument : Document := [([0x62], .binary 1 [0, 0, 0, 7, 9])]

def nullDocument : Document := [([0x6E], .null none)]

theorem reads_binaryDocument : Reads .amd64 .NATIVE_BYTE_ORDER
    (.document [([0x62], .binary 7 [9])]) (binaryDocument.bytes .amd64) := by
  have hbin : Reads .amd64 .NATIVE_BYTE_ORDER (.value .binary (.binary 7 [9]))
      ([1, 0, 0, 0] ++ ([7] ++ [9])) := .binary rfl (by decide)
  have hbyt : binaryDocument.bytes .amd64 = [14, 0, 0, 0] ++
      (0x05 :: ([0x62, 0] ++ (([1, 0, 0, 0] ++ ([7] ++ [9])) ++ [0]))) := by decide
  rw [hbyt]
  exact .document rfl (.element (by decide) hbin (.done _))

theorem reads_nullDocument : Reads .amd64 .NATIVE_BYTE_ORDER
    (.document [([0x6E], .null (some 0))]) (nullDocument.bytes .amd64) := by
  have hbyt : nullDocument.bytes .amd64 = [8, 0, 0, 0] ++
      (0x0A :: ([0x6E, 0] ++ ([] ++ [0]))) := by decide
  rw [hbyt]
  exact .document rfl (.element (by decide) .null (.done _))

/-- A binary is written without its size, and its subtype and the first three bytes of its
buffer are read as one; and a null value is read as the value zero.  In both cases all
bytes are taken and the result is another document. -/
theorem reread_differs :
    (∃ fuel s, Document.read .amd64 .NATIVE_BYTE_ORDER fuel
      ⟨binaryDocument.bytes .amd64, true, fun _ => 0⟩ = .ok [([0x62], .binary 7 [9])] s ∧
      s.good = true ∧ s.input = []) ∧
    (∃ fuel s, Document.read .amd64 .NATIVE_BYTE_ORDER fuel
      ⟨nullDocument.bytes .amd64, true, fun _ => 0⟩ = .ok [([0x6E], .null (some 0))] s ∧
      s.good = true ∧ s.input = []) := by
  constructor
  · obtain ⟨junk', hread⟩ := reads_binaryDocument.read _ le_rfl [] fun _ => 0
    rw [append_nil] at hread
    exact ⟨_, _, hread, rfl, rfl⟩
  · obtain ⟨junk', hread⟩ := reads_nullDocument.read _ le_rfl [] fun _ => 0
    rw [append_nil] at hread
    exact ⟨_, _, hread, rfl, rfl⟩

end Poco.MongoDB
