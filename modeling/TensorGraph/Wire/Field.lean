import TensorGraph.Wire.Varint

/-!
# Fields of encoded messages

A message is a sequence of fields.  Each starts with a tag, which holds the field's number and how
its value is stored.  `Field.next` reads one field and returns the rest of the input; `foldFields`
runs through all fields of a message.  The accessors of a field convert its value, and fail with the
field's place when it is stored in another way.

The rest of the input is always shorter (`Field.next_length`), and so is the payload of each field;
nested messages are read by recursion on that length.
-/

namespace TensorGraph
namespace Wire

/-- The value of a field, by the way it is stored. -/
inductive FieldValue where
  | varint (v : UInt64)
  | fixed64 (v : UInt64)
  | len (payload : Bytes)
  | fixed32 (v : UInt32)
  deriving DecidableEq, Repr

namespace FieldValue

/-- The length of the payload of a length-delimited value. -/
def payloadSize : FieldValue → Nat
  | len payload => payload.length
  | _ => 0

end FieldValue

/-- A field as it was read from a message. -/
structure Field where
  number : Nat
  value : FieldValue
  /-- The bytes of the field with its tag. -/
  raw : Bytes
  /-- The kind of message that holds the field. -/
  context : Option String
  deriving DecidableEq, Repr

/-- The number whose base 256 digits are the given bytes, least significant first. -/
def littleEndian : Bytes → Nat
  | [] => 0
  | b :: rest => b.toNat + 256 * littleEndian rest

/-- The `count` lowest base 256 digits of a number, least significant first. -/
def toLittleEndian : Nat → Nat → Bytes
  | 0, _ => []
  | count + 1, n => UInt8.ofNat n :: toLittleEndian count (n / 256)

/-- Cut bytes into groups of `width + 1`; a shorter rest is dropped. -/
def chunks (width : Nat) (payload : Bytes) : List Bytes :=
  if width < payload.length then
    payload.take (width + 1) :: chunks width (payload.drop (width + 1))
  else []
termination_by payload.length
decreasing_by simp; omega

/-- Take exactly `count` bytes. -/
def take (count : Nat) (bytes : Bytes) : Except Fault (Bytes × Bytes) :=
  if count ≤ bytes.length then .ok (bytes.take count, bytes.drop count) else .error .endOfMessage

/-- Read a value that is stored in the way the tag's low bits say. -/
def readValue (wireType : Nat) (bytes : Bytes) : Except Fault (FieldValue × Bytes) :=
  match wireType with
  | 0 => (Varint.read bytes).map fun (v, rest) => (.varint (UInt64.ofNat v), rest)
  | 1 => (take 8 bytes).map fun (b, rest) => (.fixed64 (UInt64.ofNat (littleEndian b)), rest)
  | 2 => do
    let (count, rest) ← Varint.read bytes
    let (payload, rest) ← take count rest
    return (.len payload, rest)
  | 5 => (take 4 bytes).map fun (b, rest) => (.fixed32 (UInt32.ofNat (littleEndian b)), rest)
  | _ => .error .wireType

namespace Field

/-- Read the first field of a message, if there is one, and return the rest of the message. -/
def next (context : Option String) (bytes : Bytes) :
    Except DecodeError (Option (Field × Bytes)) :=
  match bytes with
  | [] => .ok none
  | _ :: _ =>
    match Varint.read bytes with
    | .error fault => .error (DecodeError.within ⟨fault, none, none⟩ context none)
    | .ok (tag, afterTag) =>
      match readValue (tag % 8) afterTag with
      | .error fault => .error (DecodeError.within ⟨fault, none, none⟩ context (some (tag / 8)))
      | .ok (value, rest) =>
        .ok (some (⟨tag / 8, value, bytes.take (bytes.length - rest.length), context⟩, rest))

end Field

theorem take_length {count : Nat} {bytes first rest : Bytes}
    (h : take count bytes = .ok (first, rest)) :
    rest.length ≤ bytes.length ∧ first.length ≤ bytes.length := by
  unfold take at h
  split at h
  · cases h
    simp only [List.length_take, List.length_drop]
    omega
  · cases h

theorem readValue_length {wireType : Nat} {bytes rest : Bytes} {value : FieldValue}
    (h : readValue wireType bytes = .ok (value, rest)) :
    rest.length ≤ bytes.length ∧ value.payloadSize ≤ bytes.length := by
  unfold readValue at h
  split at h
  · cases hr : Varint.read bytes with
    | error e => simp [hr, Except.map] at h
    | ok p =>
      obtain ⟨v, tail⟩ := p
      have := Varint.read_length hr
      simp [hr, Except.map] at h
      simp [← h.1, ← h.2, FieldValue.payloadSize]
      omega
  · cases hr : take 8 bytes with
    | error e => simp [hr, Except.map] at h
    | ok p =>
      obtain ⟨first, tail⟩ := p
      simp [hr, Except.map] at h
      simpa [← h.1, ← h.2, FieldValue.payloadSize] using (take_length hr).1
  · cases hr : Varint.read bytes with
    | error e => simp [hr, bind, Except.bind] at h
    | ok p =>
      obtain ⟨count, tail⟩ := p
      have h1 := Varint.read_length hr
      cases ht : take count tail with
      | error e => simp [hr, ht, bind, Except.bind] at h
      | ok q =>
        obtain ⟨payload, last⟩ := q
        have h2 := take_length ht
        simp [hr, ht, bind, Except.bind, pure, Except.pure] at h
        simp [← h.1, ← h.2, FieldValue.payloadSize]
        omega
  · cases hr : take 4 bytes with
    | error e => simp [hr, Except.map] at h
    | ok p =>
      obtain ⟨first, tail⟩ := p
      simp [hr, Except.map] at h
      simpa [← h.1, ← h.2, FieldValue.payloadSize] using (take_length hr).1
  · cases h

namespace Field

/-- After a field the rest of the message and the field's payload are both shorter. -/
theorem next_length {context : Option String} {bytes rest : Bytes} {f : Field}
    (h : next context bytes = .ok (some (f, rest))) :
    rest.length < bytes.length ∧ f.value.payloadSize < bytes.length := by
  unfold next at h
  split at h
  · cases h
  · split at h
    · cases h
    · rename_i tag afterTag hr
      have h1 := Varint.read_length hr
      split at h
      · cases h
      · rename_i value rest' hv
        have h2 := readValue_length hv
        cases h
        simp only
        omega

/-- An error at this field. -/
def error (f : Field) (fault : Fault) : DecodeError :=
  DecodeError.within ⟨fault, none, none⟩ f.context (some f.number)

/-- The payload of a length-delimited field. -/
def bytes (f : Field) : Except DecodeError { p : Bytes // p.length = f.value.payloadSize } :=
  match f.value with
  | .len payload => .ok ⟨payload, rfl⟩
  | _ => .error (f.error .typeMismatch)

/-- The payload of a length-delimited field as text. -/
def string (f : Field) : Except DecodeError String := do
  let payload ← f.bytes
  match String.fromUTF8? ⟨payload.1.toArray⟩ with
  | some s => .ok s
  | none => .error (f.error .text)

/-- The value of a field that is stored as a variable-length integer. -/
def varint (f : Field) : Except DecodeError UInt64 :=
  match f.value with
  | .varint v => .ok v
  | _ => .error (f.error .typeMismatch)

/-- The low 32 bits of the value, as a signed number. -/
def int32 (f : Field) : Except DecodeError Int32 :=
  f.varint.map fun v => v.toUInt32.toInt32

/-- The value as a signed number. -/
def int64 (f : Field) : Except DecodeError Int64 :=
  f.varint.map UInt64.toInt64

/-- The bits of a single-precision value. -/
def float (f : Field) : Except DecodeError UInt32 :=
  match f.value with
  | .fixed32 v => .ok v
  | _ => .error (f.error .typeMismatch)

/-- All integers of a packed list. -/
def packedVarints (f : Field) (payload : Bytes) : Except DecodeError (List UInt64) :=
  if payload.isEmpty then .ok []
  else
    match _shorter : Varint.read payload with
    | .error fault => .error (f.error fault)
    | .ok (v, rest) => (packedVarints f rest).map fun vs => UInt64.ofNat v :: vs
termination_by payload.length
decreasing_by exact Varint.read_length _shorter

/-- The integers of a repeated field, which holds one element or a packed list. -/
def varints (f : Field) : Except DecodeError (List UInt64) :=
  match f.value with
  | .varint v => .ok [v]
  | .len payload => packedVarints f payload
  | _ => .error (f.error .typeMismatch)

/-- The single-precision values of a repeated field. -/
def floats (f : Field) : Except DecodeError (List UInt32) :=
  match f.value with
  | .fixed32 v => .ok [v]
  | .len payload =>
    if payload.length % 4 = 0 then
      .ok ((chunks 3 payload).map fun b => UInt32.ofNat (littleEndian b))
    else .error (f.error .lengthMismatch)
  | _ => .error (f.error .typeMismatch)

/-- The double-precision values of a repeated field. -/
def doubles (f : Field) : Except DecodeError (List UInt64) :=
  match f.value with
  | .fixed64 v => .ok [v]
  | .len payload =>
    if payload.length % 8 = 0 then
      .ok ((chunks 7 payload).map fun b => UInt64.ofNat (littleEndian b))
    else .error (f.error .lengthMismatch)
  | _ => .error (f.error .typeMismatch)

end Field

/-- Run through the fields that are left of a message whose length was `total`. -/
def foldRest {σ : Type} (context : Option String) (total : Nat)
    (step : σ → (f : Field) → f.value.payloadSize < total → Except DecodeError σ)
    (state : σ) (bytes : Bytes) (fits : bytes.length ≤ total) : Except DecodeError σ :=
  match h : Field.next context bytes with
  | .error e => .error e
  | .ok none => .ok state
  | .ok (some (f, rest)) =>
    have shorter := Field.next_length h
    match step state f (Nat.lt_of_lt_of_le shorter.2 fits) with
    | .error e => .error e
    | .ok state => foldRest context total step state rest (by omega)
termination_by bytes.length
decreasing_by exact shorter.1

/-- Run through all fields of a message in order.  The first field that cannot be read, or that the
step refuses, ends the run with its error. -/
def foldFields {σ : Type} (context : Option String) (bytes : Bytes) (start : σ)
    (step : σ → (f : Field) → f.value.payloadSize < bytes.length → Except DecodeError σ) :
    Except DecodeError σ :=
  foldRest context bytes.length step start bytes (Nat.le_refl _)

end Wire
end TensorGraph
