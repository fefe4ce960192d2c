import Poco.MongoDB.Format

/-!
# Reading a document from any bytes

On a stream that ends too early the type of the next element is not read, the variable keeps the
type of the last one, and the loop goes on for ever, or a string without a character is shortened.
What variables without an initial value hold is not determined; the property is that reading ends
well whatever they hold.

## Main definitions

* `Stops`: bytes from a type byte on that begin with complete elements and then an element of an
  unsupported type, or a document in which this is so.
* `EndsWell`: reading returns, or throws the exception for an unsupported type.
* `Framed`: the byte strings that begin with a complete document, or with a part of one up to an
  element of an unsupported type.

## Main results

* `readElements_exhausted`: on an exhausted stream the loop does not end well, once it is in an
  element of a supported type: the type stays what it is.
* `Framed.readsSafely`, `framed_of_endsWell`: the two directions of `readsSafely_iff`.
* `readsSafely_iff`: the byte strings on which reading ends well.
-/

namespace Poco.MongoDB

open List BinaryReader

variable (π : Platform) (order : StreamByteOrder)

inductive Stops : Bytes → Prop
  | unsupported {type : UInt8} {bs : Bytes} (hzero : type ≠ 0)
    (htype : ElementType.ofTypeId type = none) : Stops (type :: bs)
  | later {t : ElementType} {name : Name} {v : Value} {bs rest : Bytes} (hname : 0 ∉ name)
    (hv : Reads π order (.value t v) bs) (hrest : Stops rest) :
    Stops (t.typeId :: (writeCString name ++ (bs ++ rest)))
  | inside {t : ElementType} {name : Name} {size rest : Bytes}
    (ht : t = .document ∨ t = .array) (hname : 0 ∉ name) (hsize : size.length = 4)
    (hrest : Stops rest) : Stops (t.typeId :: (writeCString name ++ (size ++ rest)))

def EndsWell {α : Type} : EStateM.Result Stop BinaryReader α → Prop
  | .ok _ _ => True
  | .error (.notImplemented _ _) _ => True
  | .error .eraseFromEmpty _ => False
  | .error .negativeLength _ => False
  | .error .outOfFuel _ => False

/-- Whatever variables without an initial value hold, reading ends well, in no more rounds
than there are bytes. -/
def ReadsSafely (bytes : Bytes) : Prop :=
  ∀ junk, EndsWell (Document.read π order bytes.length ⟨bytes, true, junk⟩)

/-! ### Byte strings of the format -/

variable {π order}

variable {bs bytes : Bytes} {t : ElementType} {d : Document}

theorem Stops.exists_type (h : Stops π order bs) : ∃ type rest, bs = type :: rest := by
  cases h with
  | unsupported | later | inside => exact ⟨_, _, rfl⟩

theorem exists_readCString (s : BinaryReader) : ∃ name s', readCString s = .ok name s' := by
  unfold readCString
  split
  · exact ⟨_, _, rfl⟩
  · exact ⟨_, _, rfl⟩

variable {ty type : UInt8} {fuel : ℕ} {s s' : BinaryReader}

theorem readElements_unsupported (hzero : type ≠ 0) (htype : ElementType.ofTypeId type = none)
    (fuel : ℕ) (d : Document) (s : BinaryReader) :
    ∃ name s', readElements π order (fuel + 1) type d s =
      .error (.notImplemented name type) s' := by
  obtain ⟨name, s', hname⟩ := exists_readCString s
  rw [readElements, if_neg hzero, htype, bind_of_ok hname]
  exact ⟨name, s', rfl⟩

/-- On a good stream over these bytes the exception for an unsupported type is thrown. -/
def Throws {α : Type} (m : ReadM α) (bs : Bytes) : Prop :=
  ∀ junk, ∃ name type s', m ⟨bs, true, junk⟩ = .error (.notImplemented name type) s'

theorem Throws.bind {f : α → ReadM β} (h : Throws m bs) : Throws (m >>= f) bs := by
  intro junk
  obtain ⟨name, type, s', hm⟩ := h junk
  exact ⟨name, type, s', bind_of_error hm⟩

theorem throws_bind {f : α → ReadM β} {a : α}
    (hm : Yields m a bs) (hf : Throws (f a) rest) : Throws (m >>= f) (bs ++ rest) := by
  intro junk
  obtain ⟨junk', hstep⟩ := hm rest junk
  rw [bind_of_ok hstep]
  exact hf junk'

theorem throws_read (hsize : size.length = 4)
    (h : Throws (readElements π order fuel type []) rest) :
    Throws (Document.read π order fuel) (size ++ type :: rest) := by
  rw [← singleton_append, ← append_assoc]
  exact throws_bind (readHeader_yields hsize) h

theorem Stops.readElements (h : Stops π order bs) :
    ∀ fuel ≥ bs.length, ∀ type rest, bs = type :: rest → ∀ d,
      Throws (MongoDB.readElements π order fuel type d) rest := by
  induction h with
  | unsupported hzero htype =>
    rintro fuel hfuel _ _ ⟨⟩ d junk
    obtain ⟨fuel, rfl⟩ : ∃ n, fuel = n + 1 := ⟨fuel - 1, by simp at hfuel; omega⟩
    obtain ⟨name, s', hs'⟩ := readElements_unsupported hzero htype fuel d _
    exact ⟨name, _, s', hs'⟩
  | @later t name v bs rest hname hv hrest ih =>
    rintro fuel hfuel _ _ ⟨⟩ d
    obtain ⟨type, rest, rfl⟩ := hrest.exists_type
    simp only [length_cons, length_append] at hfuel
    obtain ⟨fuel, rfl⟩ : ∃ n, fuel = n + 1 := ⟨fuel - 1, by omega⟩
    rw [readElements_typeId]
    refine throws_bind (readCString_yields hname) (throws_bind (hv.read fuel (by omega)) ?_)
    exact throws_bind (extractByte_yields t.typeId type) (ih fuel (by simp; omega) type rest rfl _)
  | @inside t name size rest ht hname hsize hrest ih =>
    rintro fuel hfuel _ _ ⟨⟩ d
    obtain ⟨type, rest, rfl⟩ := hrest.exists_type
    simp only [length_cons, length_append] at hfuel
    obtain ⟨fuel, rfl⟩ : ∃ n, fuel = n + 1 := ⟨fuel - 1, by omega⟩
    rw [readElements_typeId]
    refine throws_bind (readCString_yields hname) (.bind ?_)
    -- the document inside is read up to the unsupported type
    have hnes := throws_read hsize (ih fuel (by simp; omega) type rest rfl [])
    rcases ht with rfl | rfl
    · exact hnes.bind
    · exact hnes.bind

theorem Stops.read (hsize : size.length = 4) (h : Stops π order rest)
    (hfuel : (size ++ rest).length ≤ fuel) :
    Throws (Document.read π order fuel) (size ++ rest) := by
  obtain ⟨type, rest, rfl⟩ := h.exists_type
  rw [length_append] at hfuel
  exact throws_read hsize (h.readElements fuel (by omega) type rest rfl [])

/-! ### An exhausted stream -/

/-- A stream that is not good, where variables without an initial value are filled with
ones: as a type this is a `double`, as a size it is positive. -/
def exhausted (input : Bytes) : BinaryReader := ⟨input, false, fun _ => 1⟩

variable {input : Bytes}

@[simp] theorem uninitialized_exhausted (n : ℕ) :
    (uninitialized n : ReadM _) (exhausted input) =
      .ok (List.replicate n 1) (exhausted input) := by
  simp [uninitialized, exhausted]

@[simp] theorem readCString_exhausted :
    readCString (exhausted input) = .ok [] (exhausted input) := rfl

@[simp] theorem extractByte_exhausted (old : UInt8) :
    (extractByte old : ReadM _) (exhausted input) = .ok old (exhausted input) := rfl

theorem decode_ones : decode π order [1, 1, 1, 1] = 0x01010101 := by
  cases hbig : π.bigEndian <;> cases hflip : π.flipBytes order <;>
    simp [decode, Platform.load, ByteOrder.flipBytes, Bytes.natBE, Bytes.natLE, Bytes.bytesLE]

theorem extractInt32_exhausted : extractInt32 π order (exhausted input) =
    .ok 0x01010101 (exhausted input) := by
  show EStateM.Result.ok (BitVec.ofNat 32 (decode π order [1, 1, 1, 1])) _ = _
  rw [decode_ones]
  rfl

theorem extractUnsignedChar_exhausted :
    extractUnsignedChar (exhausted input) = .ok 1 (exhausted input) := by
  rfl

theorem readHeader_exhausted : readHeader π order (exhausted input) = .ok 1 (exhausted input) := by
  exact extractUnsignedChar_exhausted

theorem readString_exhausted :
    readString π order (exhausted input) = .error .eraseFromEmpty (exhausted input) := by
  rw [readString, bind_of_ok extractInt32_exhausted]
  rfl

theorem not_endsWell_bind {f : α → ReadM β} (h : ¬ EndsWell (m s)) : ¬ EndsWell ((m >>= f) s) := by
  cases hm : m s with
  | ok a s' => exact absurd (by rw [hm]; trivial) h
  | error e s' =>
    rw [hm] at h
    rw [bind_of_error hm]
    cases e <;> exact h

/-- On an exhausted stream a value is read that leaves the stream as it is, or reading
does not end well. -/
theorem readValue_exhausted (hnes : ¬ EndsWell (nested (exhausted input))) (t : ElementType) :
    ¬ EndsWell (readValue π order nested t (exhausted input)) ∨
      ∃ v, readValue π order nested t (exhausted input) = .ok v (exhausted input) := by
  cases t with
  | double | null | regularExpression | int32 | int64 => exact .inr ⟨_, rfl⟩
  | string | javaScriptCode =>
    rw [readValue, bind_of_error readString_exhausted]
    exact .inl id
  | document | array => exact .inl (not_endsWell_bind hnes)
  | binary =>
    rw [readValue, readBinary, bind_of_ok extractInt32_exhausted, if_neg (by decide),
      bind_of_ok (uninitialized_exhausted _)]
    exact .inr ⟨_, rfl⟩
  | objectId =>
    have hid : ∃ id, readObjectId (exhausted input) = .ok id (exhausted input) := by
      exact ⟨_, rfl⟩
    obtain ⟨id, hid⟩ := hid
    rw [readValue, bind_of_ok hid]
    exact .inr ⟨_, rfl⟩
  | bool =>
    exact .inr ⟨_, rfl⟩
  | timestamp =>
    have hts : ∃ ts, readTimestamp π order (exhausted input) = .ok ts (exhausted input) := by
      exact ⟨_, rfl⟩
    obtain ⟨ts, hts⟩ := hts
    rw [readValue, bind_of_ok hts]
    exact .inr ⟨_, rfl⟩

/-- What the loop does after the name of an element. -/
def readRest (π : Platform) (order : StreamByteOrder) (fuel : ℕ) (t : ElementType) (d : Document)
    (name : Name) : ReadM Document :=
  readValue π order (Document.read π order fuel) t >>= fun value =>
    extractByte t.typeId >>= fun type' =>
      MongoDB.readElements π order fuel type' (SortedAssoc.insert d name value)

theorem readRest_exhausted (ih : ∀ (t : ElementType) (d : Document),
      ¬ EndsWell (readElements π order fuel t.typeId d (exhausted input))) (t : ElementType)
    (d : Document) (name : Name) :
    ¬ EndsWell (readRest π order fuel t d name (exhausted input)) := by
  have hnes : ¬ EndsWell (Document.read π order fuel (exhausted input)) := by
    rw [Document.read, bind_of_ok readHeader_exhausted]
    -- the type is the one that the variable holds, a `double`
    exact ih .double []
  rcases readValue_exhausted hnes t with h | ⟨v, hv⟩
  · exact not_endsWell_bind h
  · rw [readRest, bind_of_ok hv, bind_of_ok (extractByte_exhausted _)]
    exact ih t _

theorem readElements_exhausted (fuel : ℕ) (t : ElementType) (d : Document) :
    ¬ EndsWell (readElements π order fuel t.typeId d (exhausted input)) := by
  induction fuel generalizing t d with
  | zero => exact id
  | succ fuel ih =>
    rw [readElements_typeId, bind_of_ok readCString_exhausted]
    exact readRest_exhausted ih t d []

/-! ### Variables that are filled with ones -/

/-- A computation keeps the filling of variables, and the errors it ends in have a
property. -/
def Fills {α : Type} (E : Stop → Prop) (m : ReadM α) : Prop :=
  ∀ s, s.junk = (fun _ => 1) → match m s with
    | .ok _ s' => s'.junk = fun _ => 1
    | .error e _ => E e

namespace Fills

variable {f : α → ReadM β}

theorem of_ok (hm : Fills E m) {a : α} (hs : s.junk = fun _ => 1) (h : m s = .ok a s') :
    s'.junk = fun _ => 1 := by
  have hms := hm s hs
  rwa [h] at hms

theorem of_error (hm : Fills E m) (hs : s.junk = fun _ => 1) (h : m s = .error e s') : E e := by
  have hms := hm s hs
  rwa [h] at hms

theorem exists_ok (hm : Fills (fun _ => False) m) (hs : s.junk = fun _ => 1) :
    ∃ a s', m s = .ok a s' ∧ s'.junk = fun _ => 1 := by
  cases h : m s with
  | ok a s' => exact ⟨a, s', rfl, hm.of_ok hs h⟩
  | error e s' => exact (hm.of_error hs h).elim

theorem pure (a : α) : Fills E (Pure.pure a) := fun _ h => h

theorem throw (h : E e) : Fills E (MonadExcept.throw e : ReadM α) := fun _ _ => h

theorem bind (hm : Fills E m) (hf : ∀ a, Fills E (f a)) : Fills E (m >>= f) := by
  intro s hs
  have hms := hm s hs
  cases h : m s with
  | ok a s' =>
    rw [h] at hms
    rw [bind_of_ok h]
    exact hf a s' hms
  | error e s' =>
    rw [h] at hms
    rw [bind_of_error h]
    exact hms

theorem ofGood (hm : Fills E m) (hm' : Fills E m') :
    Fills E (get >>= fun s : BinaryReader => if s.good then m else m') := by
  intro s hs
  have heq : (get >>= fun s : BinaryReader => if s.good then m else m') s =
    (if s.good then m else m') s := rfl
  rw [heq]
  cases s.good with
  | false => exact hm' s hs
  | true => exact hm s hs

theorem istrRead (n : ℕ) : Fills E (BinaryReader.istrRead n) := by
  intro s hs
  unfold BinaryReader.istrRead
  cases s.good with
  | false | true => exact hs

theorem uninitialized (n : ℕ) : Fills E (BinaryReader.uninitialized n) := by
  intro s hs
  show (fun i => s.junk (i + n)) = _
  rw [hs]

theorem readCString : Fills E MongoDB.readCString := by
  intro s hs
  unfold MongoDB.readCString
  cases s.good with
  | false | true => exact hs

theorem extract (old : Bytes) : Fills E (BinaryReader.extract π order old) :=
  (istrRead _).bind fun _ => pure _

theorem extractByte (old : UInt8) : Fills E (BinaryReader.extractByte old) :=
  (istrRead _).bind fun _ => pure _

theorem extractInt32 : Fills E (MongoDB.extractInt32 π order) :=
  (uninitialized 4).bind fun _ => (extract _).bind fun _ => pure _

theorem extractUnsignedChar : Fills E MongoDB.extractUnsignedChar :=
  (uninitialized 1).bind fun _ => extractByte _

theorem readHeader : Fills E (MongoDB.readHeader π order) :=
  extractInt32.bind fun _ => extractUnsignedChar

theorem readRawLoop (n : ℕ) : Fills E (MongoDB.readRawLoop n) := by
  induction n with
  | zero => exact pure _
  | succ n ih =>
    exact (istrRead 1).bind fun c => ofGood (ih.bind fun cs => pure (c ++ cs)) (pure [])

theorem readString (hE : E .eraseFromEmpty ∧ E .negativeLength) :
    Fills E (MongoDB.readString π order) := by
  refine extractInt32.bind fun size => ?_
  split
  · exact throw hE.2
  · refine (readRawLoop _).bind fun value => ?_
    split
    · exact throw hE.1
    · exact pure _

theorem readValue (hE : E .eraseFromEmpty ∧ E .negativeLength)
    (hnes : Fills E nested ∨ t ≠ .document ∧ t ≠ .array) :
    Fills E (MongoDB.readValue π order nested t) := by
  cases t with
  | double => exact ((istrRead 8).bind fun _ => pure _).bind fun _ => pure _
  | string | javaScriptCode => exact (readString hE).bind fun _ => pure _
  | document => exact (hnes.resolve_right fun h => h.1 rfl).bind fun _ => pure _
  | array => exact (hnes.resolve_right fun h => h.2 rfl).bind fun _ => pure _
  | binary =>
    refine extractInt32.bind fun size => ?_
    split
    · exact throw hE.2
    · exact (uninitialized _).bind fun _ => extractUnsignedChar.bind fun _ =>
        (istrRead _).bind fun _ => pure _
  | objectId =>
    exact ((uninitialized 12).bind fun _ => (istrRead 12).bind fun _ => pure _).bind fun _ => pure _
  | bool => exact extractUnsignedChar.bind fun _ => pure _
  | timestamp =>
    exact (((uninitialized 8).bind fun _ => (extract _).bind fun _ => pure _).bind
      fun _ => pure _).bind fun _ => pure _
  | null => exact pure _
  | regularExpression => exact readCString.bind fun _ => readCString.bind fun _ => pure _
  | int32 | int64 => exact (extract _).bind fun _ => pure _

theorem readElements (fuel : ℕ) (type : UInt8) (d : Document) :
    Fills (fun _ => True) (MongoDB.readElements π order fuel type d) := by
  induction fuel generalizing type d with
  | zero => exact throw trivial
  | succ fuel ih =>
    rw [MongoDB.readElements]
    split
    · exact pure d
    refine readCString.bind fun name => ?_
    split
    · exact throw trivial
    · refine (readValue ⟨trivial, trivial⟩ (.inl ?_)).bind fun value => ?_
      · exact readHeader.bind fun type => ih type []
      · exact (extractByte _).bind fun type' => ih type' _

theorem read (fuel : ℕ) : Fills (fun _ => True) (Document.read π order fuel) :=
  readHeader.bind fun type => readElements fuel type []

end Fills

/-! ### The loop ends well only on the format -/

theorem eq_exhausted (hjunk : s.junk = fun _ => 1) (hs : ¬ s.good = true) :
    s = exhausted s.input := by
  cases s
  simp only [Bool.not_eq_true] at hs
  simp only at hjunk
  rw [hs, hjunk]
  rfl

theorem extractByte_cases (h : (extractByte old : ReadM _) s = .ok b s') :
    s'.good = true ∨ b = old := by
  obtain ⟨bs, s₁, hread, h⟩ := bind_eq_ok h
  cases h
  unfold istrRead at hread
  split at hread
  · cases hread
    cases hinp : s.input with
    | nil => exact .inr rfl
    | cons c cs => exact .inl (by simp)
  · cases hread
    exact .inr rfl

/-- The type of the first element is read, or the variable keeps the ones it is filled
with. -/
theorem readHeader_cases (hjunk : s.junk = fun _ => 1) (h : readHeader π order s = .ok type s') :
    s'.good = true ∨ type = 1 := by
  obtain ⟨size, s₁, hsize, h⟩ := bind_eq_ok h
  have hjunk₁ := (Fills.extractInt32 (E := fun _ => True)).of_ok hjunk hsize
  obtain ⟨old, s₂, hold, h⟩ := bind_eq_ok h
  cases hold
  rw [hjunk₁] at h
  exact extractByte_cases h

theorem readElements_good (hjunk : s.junk = fun _ => 1)
    (hs : s.good = true ∨ type ≠ 0) (h : readElements π order fuel type d s = .ok d' s') :
    s'.good = true := by
  induction fuel generalizing type d s with
  | zero => cases h
  | succ fuel ih =>
    rcases ElementType.typeId_cases type with rfl | ⟨htype, ht⟩ | ⟨t, rfl⟩
    · rw [readElements_zero] at h
      cases h
      exact hs.resolve_right (absurd rfl)
    · obtain ⟨name, s₁, h₁⟩ := readElements_unsupported htype ht fuel d s
      rw [h₁] at h
      cases h
    rw [readElements_typeId] at h
    obtain ⟨name, s₁, hname, h⟩ := bind_eq_ok h
    obtain ⟨v, s₂, hv, h⟩ := bind_eq_ok h
    obtain ⟨type', s₃, hbyte, h⟩ := bind_eq_ok h
    have hjunk₁ := (Fills.readCString (E := fun _ => True)).of_ok hjunk hname
    have hjunk₂ := (Fills.readValue ⟨trivial, trivial⟩ (.inl (Fills.read fuel))).of_ok hjunk₁ hv
    have hjunk₃ := (Fills.extractByte (E := fun _ => True) _).of_ok hjunk₂ hbyte
    refine ih hjunk₃ ?_ h
    rcases extractByte_cases hbyte with hgood | rfl
    · exact .inl hgood
    · exact .inr t.typeId_ne_zero

/-- Only a nested document throws the exception for an unsupported type. -/
theorem nested_of_notImplemented (hjunk : s.junk = fun _ => 1)
    (h : readValue π order nested t s = .error (.notImplemented n ty) s') :
    (t = .document ∨ t = .array) ∧ nested s = .error (.notImplemented n ty) s' := by
  by_cases ht : t = .document ∨ t = .array
  · refine ⟨ht, ?_⟩
    cases hnes : nested s with
    | ok d s₁ =>
      rcases ht with rfl | rfl <;> rw [readValue, bind_of_ok hnes] at h <;> cases h
    | error e s₁ =>
      rcases ht with rfl | rfl <;> rw [readValue, bind_of_error hnes] at h <;> cases h <;> rfl
  · have hfil : Fills (fun e => ∀ n ty, e ≠ .notImplemented n ty) (readValue π order nested t) :=
      .readValue ⟨nofun, nofun⟩ (.inr (not_or.mp ht))
    exact absurd rfl (hfil.of_error hjunk h n ty)

/-- If a document throws the exception for an unsupported type, its bytes lead to one. -/
theorem read_stops (ih : ∀ {type : UInt8} {d : Document} {s : BinaryReader}, (s.junk = fun _ => 1) →
      s.good = true → readElements π order fuel type d s = .error (.notImplemented n ty) s' →
      Stops π order (type :: s.input)) (hjunk : s.junk = fun _ => 1)
    (h : Document.read π order fuel s = .error (.notImplemented n ty) s') :
    ∃ size rest, s.input = size ++ rest ∧ size.length = 4 ∧ Stops π order rest := by
  obtain ⟨type, s₁, hhd, hjunk₁⟩ := Fills.readHeader.exists_ok hjunk
  rw [Document.read, bind_of_ok hhd] at h
  by_cases hgood : s₁.good = true
  · obtain ⟨-, _, hinp, size, hsize, rfl⟩ := readHeader_takes _ _ _ hhd hgood
    refine ⟨size, type :: s₁.input, ?_, hsize, ih hjunk₁ hgood h⟩
    rw [hinp, append_assoc, singleton_append]
  · obtain rfl := (readHeader_cases hjunk hhd).resolve_left hgood
    have hstu : ¬ EndsWell (readElements π order fuel 1 [] (exhausted s₁.input)) :=
      readElements_exhausted fuel .double []
    rw [← eq_exhausted hjunk₁ hgood, h] at hstu
    exact absurd trivial hstu

theorem readElements_stops (hjunk : s.junk = fun _ => 1) (hs : s.good = true)
    (h : readElements π order fuel type d s = .error (.notImplemented n ty) s') :
    Stops π order (type :: s.input) := by
  induction fuel generalizing type d s with
  | zero => cases h
  | succ fuel ih =>
    rcases ElementType.typeId_cases type with rfl | ⟨htype, ht⟩ | ⟨t, rfl⟩
    · rw [readElements_zero] at h
      cases h
    · exact .unsupported htype ht
    rw [readElements_typeId] at h
    obtain ⟨name, s₁, hname, hjunk₁⟩ := Fills.readCString.exists_ok hjunk
    rw [bind_of_ok hname] at h
    have hwell : EndsWell (readRest π order fuel t d name s₁) := by
      rw [readRest, h]
      trivial
    by_cases hgood₁ : s₁.good = true
    · obtain ⟨-, _, hinp, hzero, rfl⟩ := readCString_takes _ _ _ hname hgood₁
      rw [hinp]
      cases hv : readValue π order (Document.read π order fuel) t s₁ with
      | error e s₂ =>
        rw [bind_of_error hv] at h
        cases h
        obtain ⟨hnes, hread⟩ := nested_of_notImplemented hjunk₁ hv
        obtain ⟨size, rest, hrest, hsize, hsto⟩ := read_stops ih hjunk₁ hread
        rw [hrest]
        exact .inside hnes hzero hsize hsto
      | ok v s₂ =>
        rw [bind_of_ok hv] at h
        have hjunk₂ :=
          (Fills.readValue ⟨trivial, trivial⟩ (.inl (Fills.read fuel))).of_ok hjunk₁ hv
        obtain ⟨type', s₃, hbyte, hjunk₃⟩ := (Fills.extractByte t.typeId).exists_ok hjunk₂
        rw [bind_of_ok hbyte] at h
        by_cases hgood₃ : s₃.good = true
        · obtain ⟨hgood₂, _, hinp₂, rfl⟩ := extractByte_takes _ _ _ _ hbyte hgood₃
          obtain ⟨-, bs, hinp₁, hrd⟩ :=
            readValue_takes (read_takes fuel) t _ _ _ hv hgood₂
          rw [hinp₁, hinp₂]
          exact .later hzero hrd (ih hjunk₃ hgood₃ h)
        · -- the next type was not read
          obtain rfl := (extractByte_cases hbyte).resolve_left hgood₃
          rw [eq_exhausted hjunk₃ hgood₃] at h
          exact absurd (by rw [h]; trivial) (readElements_exhausted fuel t _)
    · rw [eq_exhausted hjunk₁ hgood₁] at hwell
      exact absurd hwell (readRest_exhausted (readElements_exhausted fuel) t d name)

def Framed (π : Platform) (order : StreamByteOrder) (bytes : Bytes) : Prop :=
  (∃ d bs rest, bytes = bs ++ rest ∧ Reads π order (.document d) bs) ∨
    ∃ size rest, bytes = size ++ rest ∧ size.length = 4 ∧ Stops π order rest

theorem Framed.readsSafely (h : Framed π order bytes) : ReadsSafely π order bytes := by
  intro junk
  rcases h with ⟨d, bs, rest, rfl, hrd⟩ | ⟨size, rest, rfl, hsize, hsto⟩
  · obtain ⟨junk', hread⟩ := hrd.read (bs ++ rest).length (by simp) rest junk
    rw [hread]
    trivial
  · obtain ⟨name, type, s', hread⟩ := Stops.read hsize hsto le_rfl junk
    rw [hread]
    trivial

theorem framed_of_endsWell (h : EndsWell (Document.read π order fuel ⟨bytes, true, fun _ => 1⟩)) :
    Framed π order bytes := by
  cases hread : Document.read π order fuel ⟨bytes, true, fun _ => 1⟩ with
  | ok d s' =>
    have hgood : s'.good = true := by
      obtain ⟨type, s₁, hhd, hloop⟩ := bind_eq_ok hread
      have hjunk₁ := (Fills.readHeader (E := fun _ => True)).of_ok rfl hhd
      refine readElements_good hjunk₁ ?_ hloop
      rcases readHeader_cases rfl hhd with hgood | rfl
      · exact .inl hgood
      · exact .inr (by decide)
    obtain ⟨-, bs, hinp, hrd⟩ := read_takes fuel _ _ _ hread hgood
    exact .inl ⟨d, bs, s'.input, hinp, hrd⟩
  | error e s' =>
    rw [hread] at h
    cases e with
    | notImplemented n ty => exact .inr (read_stops readElements_stops rfl hread)
    | eraseFromEmpty | negativeLength | outOfFuel => exact h.elim

variable (π order)

/-- Reading ends well on a byte string, whatever variables without an initial value hold
and in no more rounds than there are bytes, exactly if the string begins with a complete
document or with a part of one up to an element of an unsupported type.  On any other byte
string there is a filling of these variables with which reading does not end well in any
number of rounds. -/
theorem readsSafely_iff (bytes : Bytes) :
    (ReadsSafely π order bytes ↔ Framed π order bytes) ∧
      (¬ Framed π order bytes → ∃ junk, ∀ fuel,
        ¬ EndsWell (Document.read π order fuel ⟨bytes, true, junk⟩)) :=
  ⟨⟨fun h => framed_of_endsWell (h fun _ => 1), Framed.readsSafely⟩,
    fun h => ⟨fun _ => 1, fun _ hwell => h (framed_of_endsWell hwell)⟩⟩

theorem readRest_double (fuel : ℕ) (d : Document) (name : Name) (hs : s.good = false) :
    ∃ d', readRest π order fuel .double d name s =
      readElements π order fuel ElementType.double.typeId d' s := by
  have hread : ∀ n, (istrRead n : ReadM _) s = .ok [] s := by
    intro n
    rw [istrRead, hs]
    rfl
  rw [readRest, readValue, readDouble, bind_assoc, bind_assoc, bind_of_ok (hread 8)]
  show ∃ d', (extractByte ElementType.double.typeId >>= _) s = _
  rw [extractByte, bind_assoc, bind_of_ok (hread 1)]
  exact ⟨_, rfl⟩

theorem readElements_double (fuel : ℕ) (d : Document) (hs : s.good = false) :
    readElements π order fuel ElementType.double.typeId d s = .error .outOfFuel s := by
  have hname : readCString s = .ok [] s := by
    rw [readCString, hs]
    rfl
  induction fuel generalizing d with
  | zero => rfl
  | succ fuel ih =>
    obtain ⟨d', hrest⟩ := readRest_double π order fuel d [] hs
    rw [readElements_typeId, bind_of_ok hname]
    exact hrest.trans (ih d')

/-- A document that ends after the type of an element, a `double`: reading does not end,
on any platform and whatever variables hold. -/
theorem read_double_outOfFuel (fuel : ℕ) (junk : ℕ → UInt8) : ∃ s,
    Document.read π order fuel ⟨[5, 0, 0, 0, 1], true, junk⟩ = .error .outOfFuel s := by
  have hhd : Yields (readHeader π order) ElementType.double.typeId ([5, 0, 0, 0] ++ [1]) :=
    readHeader_yields rfl
  obtain ⟨junk', hhd⟩ := hhd [] junk
  change readHeader π order ⟨[5, 0, 0, 0, 1], true, junk⟩ = _ at hhd
  rw [Document.read, bind_of_ok hhd]
  cases fuel with
  | zero => exact ⟨_, rfl⟩
  | succ fuel =>
    -- there is no name, so that the stream is not good any more
    have hname : readCString ⟨[], true, junk'⟩ = .ok [] ⟨[], false, junk'⟩ := rfl
    obtain ⟨d', hrest⟩ := readRest_double π order fuel [] [] (s := ⟨[], false, junk'⟩) rfl
    rw [readElements_typeId, bind_of_ok hname]
    exact ⟨_, hrest.trans (readElements_double π order fuel d' rfl)⟩

/-- On a platform with little-endian words, five bytes on which reading does not end well in
any number of rounds, whatever variables hold. -/
theorem read_truncated :
    ¬ ∃ fuel junk, EndsWell (Document.read .amd64
      .LITTLE_ENDIAN_BYTE_ORDER fuel ⟨[5, 0, 0, 0, 1], true, junk⟩) := by
  rintro ⟨fuel, junk, hwell⟩
  obtain ⟨s, hs⟩ := read_double_outOfFuel .amd64
    .LITTLE_ENDIAN_BYTE_ORDER fuel junk
  rw [hs] at hwell
  exact hwell

end Poco.MongoDB
