import Mathlib.Data.List.Forall2
import TensorGraph.Number.Binary32
import TensorGraph.Number.Binary64
import TensorGraph.Proofs.Wire.Reads

/-!
# Messages as fields in order

Input:

* any bytes, whose fields are read one after the other, and any sequence of calls of a writer.

Algorithm:

* `Field.all` reads fields up to the end or to the first one that cannot be read; the readers of
  messages run through the same fields (`foldFields_eq`);
* `Call.emit` gives what one call writes, and `Call.content` the number and the value that it is about.

Main results:

* `Field.all_partition`: the bytes of the fields are the input, up to where reading fails;
* `Call.all_emitAll`: what a sequence of calls writes is read back as their numbers and values;
* `Field.reads_partition_and_invert`: both, and packed lists are read like single elements.
-/

namespace TensorGraph
namespace Wire

/-! ## All fields of a message -/

namespace Field

variable {context : Option String} {bytes rest : Bytes} {f : Field} {e : DecodeError}

/-- The fields of a message in order, up to its end or to the first one that cannot be read. -/
def all (context : Option String) (bytes : Bytes) : List Field × Option DecodeError :=
  match _found : next context bytes with
  | .error e => ([], some e)
  | .ok none => ([], none)
  | .ok (some (f, rest)) => (f :: (all context rest).1, (all context rest).2)
termination_by bytes.length
decreasing_by all_goals exact (next_length _found).1

theorem next_eq_none_iff : next context bytes = .ok none ↔ bytes = [] := by
  constructor
  · intro h
    unfold next at h
    split at h
    · rfl
    · split at h
      · cases h
      · split at h <;> cases h
  · rintro rfl
    rfl

theorem all_of_end (h : next context bytes = .ok none) : all context bytes = ([], none) := by
  rw [all]
  split <;> simp_all

theorem all_of_error (h : next context bytes = .error e) : all context bytes = ([], some e) := by
  rw [all]
  split <;> simp_all

theorem all_of_field (h : next context bytes = .ok (some (f, rest))) :
    all context bytes = (f :: (all context rest).1, (all context rest).2) := by
  rw [all]
  split <;> simp_all

/-- What holds at the end of a message and where a field cannot be read, and is kept by each field in
front, holds of all bytes. -/
theorem all_induct (context : Option String) {P : Bytes → Prop}
    (last : ∀ bytes, next context bytes = .ok none → P bytes)
    (fault : ∀ bytes e, next context bytes = .error e → P bytes)
    (field : ∀ bytes f rest, next context bytes = .ok (some (f, rest)) → P rest → P bytes)
    (bytes : Bytes) : P bytes := by
  induction h : bytes.length using Nat.strongRecOn generalizing bytes with
  | ind n ih =>
      cases hnext : next context bytes with
      | error e => exact fault bytes e hnext
      | ok found =>
          cases found with
          | none => exact last bytes hnext
          | some p =>
              have shorter := (next_length hnext).1
              exact field bytes p.1 p.2 hnext (ih p.2.length (h ▸ shorter) p.2 rfl)

/-- Reading stops at the end, or at bytes that start with no field; the fields before are all of the
input in front of these. -/
theorem all_partition (context : Option String) (bytes : Bytes) :
    ∃ rest, bytes = ((all context bytes).1.map Field.raw).flatten ++ rest ∧
      next context rest = (all context bytes).2.elim (.ok none) .error := by
  induction bytes using all_induct context with
  | last bytes h =>
      rw [all_of_end h]
      exact ⟨bytes, rfl, h⟩
  | fault bytes e h =>
      rw [all_of_error h]
      exact ⟨bytes, rfl, h⟩
  | field bytes f rest h ih =>
      obtain ⟨rest', heq, hrest⟩ := ih
      rw [all_of_field h]
      refine ⟨rest', ?_, hrest⟩
      rw [List.map_cons, List.flatten_cons, List.append_assoc, ← heq]
      exact (next_local h).1

/-- The bytes of a field that was read are that field again, whatever follows them and in any kind of
message. -/
theorem next_raw (h : next context bytes = .ok (some (f, rest))) (context' : Option String)
    (rest' : Bytes) :
    next context' (f.raw ++ rest') = .ok (some ({ f with context := context' }, rest')) := by
  obtain ⟨heq, value, hfield⟩ := next_local h
  have same := hfield context rest
  rw [← heq, h] at same
  have hvalue : f.value = value := congrArg Field.value (by simpa using same)
  rw [hfield context' rest', ← hvalue]

theorem next_raw_of_mem_all (h : f ∈ (all context bytes).1) (context' : Option String)
    (rest' : Bytes) :
    next context' (f.raw ++ rest') = .ok (some ({ f with context := context' }, rest')) := by
  induction bytes using all_induct context with
  | last bytes hnext =>
      rw [all_of_end hnext] at h
      cases h
  | fault bytes e hnext =>
      rw [all_of_error hnext] at h
      cases h
  | field bytes g rest hnext ih =>
      rw [all_of_field hnext] at h
      cases h with
      | head => exact next_raw hnext context' rest'
      | tail _ h => exact ih h

end Field

/-- A reader runs through all fields, and fails where a field cannot be read if it has not failed
before. -/
theorem foldFields_eq {σ : Type} (context : Option String) (bytes : Bytes) (start : σ)
    (step : σ → Field → Except DecodeError σ) :
    foldFields context bytes start (fun s f _ => step s f) =
      ((Field.all context bytes).1.foldlM step start).bind fun s =>
        (Field.all context bytes).2.elim (.ok s) .error := by
  have run : ∀ total s (fits : bytes.length ≤ total),
      foldRest context total (fun s f _ => step s f) s bytes fits =
        ((Field.all context bytes).1.foldlM step s).bind fun s =>
          (Field.all context bytes).2.elim (.ok s) .error := by
    intro total
    induction bytes using Field.all_induct context with
    | last bytes h =>
        intro s fits
        rw [Field.all_of_end h, foldRest]
        split <;> simp_all [pure, Except.pure, Except.bind]
    | fault bytes e h =>
        intro s fits
        rw [Field.all_of_error h, foldRest]
        split <;> simp_all [pure, Except.pure, Except.bind]
    | field bytes f rest h ih =>
        intro s fits
        have shorter := (Field.next_length h).1
        rw [Field.all_of_field h, foldRest, List.foldlM_cons]
        split
        · simp_all
        · simp_all
        · rename_i f' rest' h'
          rw [h] at h'
          cases h'
          dsimp only
          cases hstep : step s f with
          | error e => rfl
          | ok s' => exact ih s' (by omega)
  exact run bytes.length start (Nat.le_refl _)

/-! ## Written values -/

namespace FieldValue

/-- The way in which a value is stored, as it stands in a tag. -/
def wireType : FieldValue → Nat
  | varint _ => 0
  | fixed64 _ => 1
  | len _ => 2
  | fixed32 _ => 5

/-- The bytes of a value behind its tag. -/
def encode : FieldValue → Bytes
  | varint v => Varint.write v.toNat
  | fixed64 v => toLittleEndian 8 v.toNat
  | len payload => Varint.write payload.length ++ payload
  | fixed32 v => toLittleEndian 4 v.toNat

theorem wireType_lt (v : FieldValue) : v.wireType < 8 := by
  cases v <;> simp [wireType]

theorem payloadSize_le (v : FieldValue) : v.payloadSize ≤ v.encode.length := by
  cases v with
  | len payload =>
      rw [encode, List.length_append, payloadSize]
      omega
  | _ => exact Nat.zero_le _

theorem emit_len (number : Nat) (payload : Bytes) :
    Emit.bytes number payload = tag number (len payload).wireType ++ (len payload).encode :=
  List.append_assoc _ _ _

end FieldValue

/-- A value is read back, whatever follows it. -/
theorem readValue_encode {v : FieldValue} (h : v.payloadSize < 2 ^ 64) (rest : Bytes) :
    readValue v.wireType (v.encode ++ rest) = .ok (v, rest) := by
  cases v with
  | varint v =>
      rw [FieldValue.wireType, FieldValue.encode, readValue, Varint.read_write v.toNat_lt]
      simp only [Except.map, UInt64.ofNat_toNat]
  | fixed64 v =>
      have hdigits : littleEndian (toLittleEndian 8 v.toNat) = v.toNat :=
        littleEndian_toLittleEndian v.toNat_lt
      rw [FieldValue.wireType, FieldValue.encode, readValue,
        take_append (length_toLittleEndian 8 _)]
      simp only [Except.map, hdigits, UInt64.ofNat_toNat]
  | len payload =>
      have hread : Varint.read (Varint.write payload.length ++ (payload ++ rest)) =
          .ok (payload.length, payload ++ rest) := Varint.read_write h _
      rw [FieldValue.wireType, FieldValue.encode, readValue, List.append_assoc, hread, ok_bind]
      dsimp only
      rw [take_append rfl, ok_bind]
      rfl
  | fixed32 v =>
      have hdigits : littleEndian (toLittleEndian 4 v.toNat) = v.toNat :=
        littleEndian_toLittleEndian v.toNat_lt
      rw [FieldValue.wireType, FieldValue.encode, readValue,
        take_append (length_toLittleEndian 4 _)]
      simp only [Except.map, hdigits, UInt32.ofNat_toNat]

/-! ## Calls of a writer -/

/-- A call of a writer. -/
inductive Call where
  | varint (number : Nat) (v : UInt64)
  | int64 (number : Nat) (v : Int64)
  | int32 (number : Nat) (v : Int32)
  | fixed32 (number : Nat) (v : UInt32)
  | fixed64 (number : Nat) (v : UInt64)
  | float (number : Nat) (v : Binary32)
  | double (number : Nat) (v : Binary64)
  | bytes (number : Nat) (payload : Bytes)
  | string (number : Nat) (s : String)
  /-- A nested message, by the calls that write it. -/
  | message (number : Nat) (inner : List Call)
  | varints (number : Nat) (vs : List UInt64)
  | floats (number : Nat) (vs : List Binary32)
  | doubles (number : Nat) (vs : List Binary64)
  /-- Bytes that were encoded before. -/
  | raw (encoded : Bytes)

namespace Call

mutual

/-- The bytes that a call writes. -/
def emit : Call → Bytes
  | varint number v => Emit.varint number v
  | int64 number v => Emit.int64 number v
  | int32 number v => Emit.int32 number v
  | fixed32 number v => Emit.fixed32 number v
  | fixed64 number v => Emit.fixed64 number v
  | float number v => Emit.fixed32 number v.bits
  | double number v => Emit.fixed64 number v.bits
  | bytes number payload => Emit.bytes number payload
  | string number s => Emit.string number s
  | message number inner => Emit.bytes number (emitAll inner)
  | varints number vs => Emit.varints number vs
  | floats number vs => Emit.floats number (vs.map Binary32.bits)
  | doubles number vs => Emit.doubles number (vs.map Binary64.bits)
  | raw encoded => encoded

/-- The bytes that calls write one after the other. -/
def emitAll : List Call → Bytes
  | [] => []
  | c :: rest => c.emit ++ emitAll rest

end

/-- The number of the field that a call is about. -/
def number? : Call → Option Nat
  | varint number _ | int64 number _ | int32 number _ | fixed32 number _ | fixed64 number _
  | float number _ | double number _ | bytes number _ | string number _ | message number _
  | varints number _ | floats number _ | doubles number _ => some number
  | raw _ => none

/-- The value of a packed list.  A list without elements is not written. -/
def packed {α : Type} (encode : α → Bytes) (vs : List α) : Option FieldValue :=
  if vs.isEmpty then none else some (.len (vs.flatMap encode))

/-- The value of the field that a call writes, if it writes one. -/
def value? : Call → Option FieldValue
  | varint _ v => some (.varint v)
  | int64 _ v => some (.varint v.toUInt64)
  | int32 _ v => some (.varint v.toInt64.toUInt64)
  | fixed32 _ v => some (.fixed32 v)
  | fixed64 _ v => some (.fixed64 v)
  | float _ v => some (.fixed32 v.bits)
  | double _ v => some (.fixed64 v.bits)
  | bytes _ payload => some (.len payload)
  | string _ s => some (.len (utf8 s))
  | message _ inner => some (.len (emitAll inner))
  | varints _ vs => packed (fun v => Varint.write v.toNat) vs
  | floats _ vs => packed (fun v => toLittleEndian 4 v.toNat) (vs.map Binary32.bits)
  | doubles _ vs => packed (fun v => toLittleEndian 8 v.toNat) (vs.map Binary64.bits)
  | raw _ => none

/-- The field that a call writes, if it writes one. -/
def field? (context : Option String) (c : Call) : Option Field := do
  return ⟨← c.number?, ← c.value?, c.emit, context⟩

/-- Whether a field gives back what a call was to write, when it is read as what it was written. -/
def IsGivenBy (f : Field) : Call → Prop
  | varint _ v => f.varint = .ok v
  | int64 _ v => f.int64 = .ok v
  | int32 _ v => f.int32 = .ok v
  | fixed32 _ v => f.value = .fixed32 v
  | fixed64 _ v => f.value = .fixed64 v
  | float _ v => f.float = .ok v.bits
  | double _ v => f.doubles = .ok [v.bits]
  | bytes _ payload => f.bytes.map Subtype.val = .ok payload
  | string _ s => f.string = .ok s
  | message _ inner => f.bytes.map Subtype.val = .ok (emitAll inner)
  | varints _ vs => f.varints = .ok vs
  | floats _ vs => f.floats = .ok (vs.map Binary32.bits)
  | doubles _ vs => f.doubles = .ok (vs.map Binary64.bits)
  | raw _ => False

variable {c : Call} {number : Nat} {value : FieldValue} {context : Option String}

theorem packed_eq_some {α : Type} {encode : α → Bytes} {vs : List α}
    (h : packed encode vs = some value) : vs.isEmpty = false ∧ value = .len (vs.flatMap encode) := by
  unfold packed at h
  split at h
  · cases h
  · rename_i hne
    cases h
    exact ⟨by simpa using hne, rfl⟩

theorem packed_eq_none {α : Type} {encode : α → Bytes} {vs : List α} (h : packed encode vs = none) :
    vs = [] := by
  unfold packed at h
  split at h
  · rename_i hempty
    exact List.isEmpty_iff.1 hempty
  · cases h

theorem emit_eq (hnumber : c.number? = some number) (hvalue : c.value? = some value) :
    c.emit = tag number value.wireType ++ value.encode := by
  cases c with
  | varints n vs | floats n vs | doubles n vs =>
      -- a list with elements is written as its bytes
      cases hnumber
      obtain ⟨hne, rfl⟩ := packed_eq_some hvalue
      simp only [emit, Emit.varints, Emit.floats, Emit.doubles, hne, Bool.false_eq_true, if_false,
        FieldValue.emit_len]
  | bytes n _ | string n _ | message n _ =>
      cases hnumber
      cases hvalue
      exact FieldValue.emit_len number _
  | raw encoded => cases hnumber
  | _ =>
      cases hnumber
      cases hvalue
      rfl

/-- What a call writes is read as its field, whatever follows it. -/
theorem next_emit (hnumber : c.number? = some number) (small : number < 2 ^ 61)
    (hvalue : c.value? = some value) (short : c.emit.length < 2 ^ 64) (rest : Bytes) :
    Field.next context (c.emit ++ rest) =
      .ok (some (⟨number, value, c.emit, context⟩, rest)) := by
  have hemit := emit_eq hnumber hvalue
  have hsize : value.payloadSize < 2 ^ 64 := by
    have := value.payloadSize_le
    rw [hemit, List.length_append] at short
    omega
  rw [hemit]
  exact Field.next_tag value.wireType_lt small (readValue_encode hsize) context rest

/-- A call that writes no field writes nothing. -/
theorem emit_eq_nil (hnumber : c.number? = some number) (hvalue : c.value? = none) : c.emit = [] := by
  cases c with
  | varints n vs =>
      rw [packed_eq_none hvalue]
      rfl
  | floats n vs | doubles n vs =>
      have hnil := packed_eq_none hvalue
      simp only [emit, Emit.floats, Emit.doubles, hnil, List.isEmpty_nil, if_true]
  | raw encoded => cases hnumber
  | _ => cases hvalue

/-- Whether calls write fields with numbers that fit into a tag, and no bytes that were encoded before. -/
def Plain (calls : List Call) : Prop := ∀ c ∈ calls, ∃ number < 2 ^ 61, c.number? = some number

/-- What calls write is read back as their fields in order. -/
theorem all_emitAll {calls : List Call} (plain : Plain calls)
    (short : (emitAll calls).length < 2 ^ 64) (context : Option String) :
    Field.all context (emitAll calls) = (calls.filterMap (field? context), none) := by
  induction calls with
  | nil => exact Field.all_of_end rfl
  | cons c rest ih =>
      obtain ⟨number, small, hnumber⟩ := plain c List.mem_cons_self
      have hlength : (emitAll (c :: rest)).length = c.emit.length + (emitAll rest).length := by
        rw [emitAll, List.length_append]
      have hrest := ih (fun d hd => plain d (List.mem_cons_of_mem _ hd)) (by omega)
      rw [emitAll]
      cases hvalue : c.value? with
      | none =>
          have hfield : c.field? context = none := by simp [field?, hvalue]
          rw [emit_eq_nil hnumber hvalue, List.nil_append, hrest, List.filterMap_cons_none hfield]
      | some value =>
          have hfield : c.field? context = some ⟨number, value, c.emit, context⟩ := by
            simp [field?, hvalue, hnumber]
          rw [Field.all_of_field (next_emit hnumber small hvalue (by omega) _), hrest,
            List.filterMap_cons_some hfield]

/-- A field that a call wrote gives back what was written. -/
theorem isGivenBy {f : Field} (h : c.field? context = some f) : c.IsGivenBy f := by
  obtain ⟨number, hnumber, hf⟩ := Option.bind_eq_some_iff.1 h
  obtain ⟨value, hvalue, hf⟩ := Option.bind_eq_some_iff.1 hf
  cases hf
  cases c with
  | int64 n v =>
      cases hvalue
      exact Field.int64_varint
  | int32 n v =>
      cases hvalue
      exact Field.int32_varint
  | string n s =>
      cases hvalue
      exact Field.string_utf8
  | varints n vs =>
      obtain ⟨-, rfl⟩ := packed_eq_some hvalue
      exact Field.varints_packed
  | floats n vs =>
      obtain ⟨-, rfl⟩ := packed_eq_some hvalue
      exact Field.floats_packed
  | doubles n vs =>
      obtain ⟨-, rfl⟩ := packed_eq_some hvalue
      exact Field.doubles_packed
  | raw encoded => cases hnumber
  | _ =>
      cases hvalue
      rfl

end Call

/-! ## Repeated fields -/

/-- The elements of repeated fields: how one of them and how a packed list is written, and how a field
of either form is read. -/
structure Repeated (α : Type) where
  one : Nat → α → Call
  packed : Nat → List α → Call
  read : Field → Except DecodeError (List α)

namespace Repeated

/-- Integers by what they are as 64 bits. -/
def int32 : Repeated Int32 where
  one := .int32
  packed number vs := .varints number (vs.map fun v => v.toInt64.toUInt64)
  read f := f.varints.map (List.map fun v => v.toUInt32.toInt32)

def int64 : Repeated Int64 where
  one := .int64
  packed number vs := .varints number (vs.map Int64.toUInt64)
  read f := f.varints.map (List.map UInt64.toInt64)

def uint64 : Repeated UInt64 where
  one := .varint
  packed := .varints
  read f := f.varints.map (List.map fun v => v)

def float : Repeated Binary32 where
  one := .float
  packed := .floats
  read f := f.floats.map (List.map Binary32.mk)

def double : Repeated Binary64 where
  one := .double
  packed := .doubles
  read f := f.doubles.map (List.map Binary64.mk)

variable {α : Type} {r : Repeated α} {context : Option String} {number : Nat}

/-- The elements of all fields of a message. -/
def collect (r : Repeated α) (context : Option String) (bytes : Bytes) :
    Except DecodeError (List α) :=
  foldFields context bytes [] fun seen f _ => return seen ++ (← r.read f)

/-- Whether a call writes some elements: the field is read as these, and there is one unless there are
no elements. -/
structure Writes (r : Repeated α) (c : Call) (vs : List α) : Prop where
  read : ∀ context f, c.field? context = some f → r.read f = .ok vs
  omitted : ∀ context, c.field? context = none → vs = []

/-- The elements that calls write are collected in order. -/
theorem collect_emitAll {calls : List Call} {parts : List (List α)}
    (writes : List.Forall₂ r.Writes calls parts) (plain : Call.Plain calls)
    (short : (Call.emitAll calls).length < 2 ^ 64) (context : Option String) :
    r.collect context (Call.emitAll calls) = .ok parts.flatten := by
  have run : ∀ seen, (calls.filterMap (Call.field? context)).foldlM
      (fun seen f => do return seen ++ (← r.read f)) seen = .ok (seen ++ parts.flatten) := by
    clear plain short
    induction writes with
    | nil => simp [pure, Except.pure]
    | @cons c vs calls parts hc _ ih =>
        intro seen
        cases hfield : c.field? context with
        | none =>
            rw [List.filterMap_cons_none hfield, ih, hc.omitted context hfield]
            rfl
        | some f =>
            rw [List.filterMap_cons_some hfield, List.foldlM_cons, hc.read context f hfield, ok_bind]
            simp only [pure, Except.pure, ok_bind]
            rw [List.flatten_cons, ← List.append_assoc]
            exact ih (seen ++ vs)
  have hfold := foldFields_eq context (Call.emitAll calls) []
    fun seen f => do return seen ++ (← r.read f)
  rw [Call.all_emitAll plain short, run] at hfold
  exact hfold

theorem Writes.of_call {c : Call} {vs : List α} (hnumber : c.number? = some number)
    (omitted : c.value? = none → vs = []) (read : ∀ f, c.IsGivenBy f → r.read f = .ok vs) :
    r.Writes c vs := by
  refine ⟨fun context f h => read f (Call.isGivenBy h), fun context h => omitted ?_⟩
  cases hvalue : c.value? with
  | none => rfl
  | some value => simp [Call.field?, hnumber, hvalue] at h

/-- Whether elements are read back from both forms. -/
structure Lawful (r : Repeated α) : Prop where
  numberOne : ∀ number v, (r.one number v).number? = some number
  numberPacked : ∀ number vs, (r.packed number vs).number? = some number
  one : ∀ number v, r.Writes (r.one number v) [v]
  packed : ∀ number vs, r.Writes (r.packed number vs) vs

end Repeated

/-- A single integer is a list of one element. -/
theorem Field.varints_of_varint {α : Type} {f : Field} {decode : UInt64 → α} {v : α}
    (h : f.varint.map decode = .ok v) : f.varints.map (List.map decode) = .ok [v] := by
  unfold Field.varint at h
  unfold Field.varints
  cases hvalue : f.value with
  | varint w =>
      simp only [hvalue, Except.map, Except.ok.injEq] at h
      simp [Except.map, h]
  | _ => simp [hvalue, Except.map] at h

theorem Field.floats_of_float {f : Field} {v : UInt32} (h : f.float = .ok v) :
    f.floats = .ok [v] := by
  unfold Field.float at h
  unfold Field.floats
  cases hvalue : f.value with
  | fixed32 w => simpa [hvalue] using h
  | _ => simp [hvalue] at h

namespace Repeated

/-- Elements that are decoded from what they were encoded as. -/
theorem map_eq_ok {ε α β : Type} {encode : α → β} (decode : β → α)
    (inverse : ∀ v, decode (encode v) = v) {vs : List α} {read : Except ε (List β)}
    (h : read = .ok (vs.map encode)) : read.map (List.map decode) = .ok vs := by
  have same : decode ∘ encode = id := funext inverse
  rw [h]
  simp [Except.map, same]

theorem eq_nil_of_packed {α β : Type} {encode : β → Bytes} {encoded : α → β} {vs : List α}
    (h : Call.packed encode (vs.map encoded) = none) : vs = [] :=
  List.map_eq_nil_iff.1 (Call.packed_eq_none h)

theorem lawful_int32 : int32.Lawful where
  numberOne _ _ := rfl
  numberPacked _ _ := rfl
  one _ _ := .of_call rfl nofun fun _ h => Field.varints_of_varint h
  packed _ _ := .of_call rfl eq_nil_of_packed fun _ h =>
    map_eq_ok (fun v : UInt64 => v.toUInt32.toInt32) toInt32_toUInt64 h

theorem lawful_int64 : int64.Lawful where
  numberOne _ _ := rfl
  numberPacked _ _ := rfl
  one _ _ := .of_call rfl nofun fun _ h => Field.varints_of_varint h
  packed _ _ := .of_call rfl eq_nil_of_packed fun _ h => map_eq_ok UInt64.toInt64 Int64.toInt64_toUInt64 h

theorem lawful_uint64 : uint64.Lawful where
  numberOne _ _ := rfl
  numberPacked _ _ := rfl
  one _ _ := .of_call rfl nofun fun _ h =>
    Field.varints_of_varint (congrArg (Except.map fun v => v) h)
  packed _ vs := .of_call rfl Call.packed_eq_none fun _ h =>
    map_eq_ok (fun v => v) (fun _ => rfl) (h.trans (congrArg Except.ok (List.map_id' vs).symm))

theorem lawful_float : float.Lawful where
  numberOne _ _ := rfl
  numberPacked _ _ := rfl
  one _ _ := .of_call rfl nofun fun _ h => map_eq_ok Binary32.mk (fun _ => rfl) (Field.floats_of_float h)
  packed _ _ := .of_call rfl eq_nil_of_packed fun _ h => map_eq_ok Binary32.mk (fun _ => rfl) h

theorem lawful_double : double.Lawful where
  numberOne _ _ := rfl
  numberPacked _ _ := rfl
  one _ _ := .of_call rfl nofun fun _ h => map_eq_ok Binary64.mk (fun _ => rfl) h
  packed _ _ := .of_call rfl eq_nil_of_packed fun _ h => map_eq_ok Binary64.mk (fun _ => rfl) h

/-- Whether a packed list and the calls of its elements one by one are read as the same elements. -/
def ReadsAlike {α : Type} (r : Repeated α) : Prop :=
  ∀ (context : Option String) (number : Nat) (vs : List α), number < 2 ^ 61 →
    (Call.emitAll [r.packed number vs]).length < 2 ^ 64 →
    (Call.emitAll (vs.map (r.one number))).length < 2 ^ 64 →
    r.collect context (Call.emitAll [r.packed number vs]) = .ok vs ∧
      r.collect context (Call.emitAll (vs.map (r.one number))) = .ok vs

theorem Lawful.readsAlike {α : Type} {r : Repeated α} (lawful : r.Lawful) : r.ReadsAlike := by
  intro context number vs small hpacked hones
  have single : Call.Plain [r.packed number vs] := by
    intro c hc
    cases List.mem_singleton.1 hc
    exact ⟨number, small, lawful.numberPacked number vs⟩
  have each : Call.Plain (vs.map (r.one number)) := by
    intro c hc
    obtain ⟨v, -, rfl⟩ := List.mem_map.1 hc
    exact ⟨number, small, lawful.numberOne number v⟩
  have writes : List.Forall₂ r.Writes (vs.map (r.one number)) (vs.map fun v => [v]) := by
    rw [List.forall₂_map_left_iff, List.forall₂_map_right_iff, List.forall₂_same]
    exact fun v _ => lawful.one number v
  constructor
  · have h := collect_emitAll (.cons (lawful.packed number vs) .nil) single hpacked context
    rwa [List.flatten_singleton] at h
  · have h := collect_emitAll writes each hones context
    have hflatten : (vs.map fun v => [v]).flatten = vs := by
      rw [← List.flatMap_def, List.flatMap_singleton']
    rwa [hflatten] at h

end Repeated

/-- The fields of any bytes are read in order up to the end, or up to bytes that start with no field, and
the bytes of the fields are all of the input in front of there.  A field is read again from its own bytes,
whatever follows them.  What calls of a writer write, in as many bytes as there can be, is read back as
their fields, each of which gives back what was written, and packed lists are read like their elements
one by one. -/
theorem Field.reads_partition_and_invert :
    (∀ (context : Option String) (bytes : Bytes),
      ((all context bytes).2 = none ∧ ((all context bytes).1.map raw).flatten = bytes) ∨
        ∃ e rest, (all context bytes).2 = some e ∧
          ((all context bytes).1.map raw).flatten ++ rest = bytes ∧ next context rest = .error e) ∧
      (∀ (context : Option String) (bytes : Bytes), ∀ f ∈ (all context bytes).1,
        ∀ context' rest, next context' (f.raw ++ rest) =
          .ok (some ({ f with context := context' }, rest))) ∧
      (∀ (context : Option String) (calls : List Call), Call.Plain calls →
        (Call.emitAll calls).length < 2 ^ 64 →
        all context (Call.emitAll calls) = (calls.filterMap (Call.field? context), none)) ∧
      (∀ (context : Option String) (c : Call) (f : Field), c.field? context = some f →
        c.IsGivenBy f) ∧
      Repeated.int32.ReadsAlike ∧ Repeated.int64.ReadsAlike ∧ Repeated.uint64.ReadsAlike ∧
      Repeated.float.ReadsAlike ∧ Repeated.double.ReadsAlike := by
  refine ⟨fun context bytes => ?_, fun context bytes f hf => next_raw_of_mem_all hf,
    fun context calls plain short => Call.all_emitAll plain short context,
    fun context c f h => Call.isGivenBy h, Repeated.lawful_int32.readsAlike,
    Repeated.lawful_int64.readsAlike, Repeated.lawful_uint64.readsAlike,
    Repeated.lawful_float.readsAlike, Repeated.lawful_double.readsAlike⟩
  obtain ⟨rest, heq, hrest⟩ := all_partition context bytes
  cases hend : (all context bytes).2 with
  | none =>
      rw [hend] at hrest
      have hnil := next_eq_none_iff.1 hrest
      rw [hnil, List.append_nil] at heq
      exact Or.inl ⟨rfl, heq.symm⟩
  | some e =>
      rw [hend] at hrest
      exact Or.inr ⟨e, rest, rfl, heq.symm, hrest⟩

/-- A negative number, a packed list without elements and a nested message that is no message at all. -/
theorem Field.reads_partition_and_invert_mixed :
    (Field.all none (Call.emitAll [.int32 1 (-1), .varints 2 [], .message 3 [.raw [0xff]]])).1.map
        (fun f => (f.number, f.value)) =
      [(1, .varint 0xffffffffffffffff), (3, .len [0xff])] ∧
      (∀ f ∈ (Field.all none (Call.emitAll [.int32 1 (-1), .varints 2 [], .message 3 [.raw [0xff]]])).1,
        Field.next (some "test") (f.raw ++ [0xff]) =
          .ok (some ({ f with context := some "test" }, [0xff]))) ∧
      Repeated.int32.collect none (Call.emitAll [.varints 1 [0xffffffffffffffff, 2]]) =
        Repeated.int32.collect none (Call.emitAll [.int32 1 (-1), .int32 1 2]) := by
  obtain ⟨-, again, written, -, alike, -⟩ := Field.reads_partition_and_invert
  have plain : Call.Plain [.int32 1 (-1), .varints 2 [], .message 3 [.raw [0xff]]] := by
    simp [Call.Plain, Call.number?]
  have short : (Call.emitAll [.int32 1 (-1), .varints 2 [], .message 3 [.raw [0xff]]]).length <
      2 ^ 64 := by
    decide +kernel
  have fields := written none _ plain short
  obtain ⟨packed, ones⟩ := alike none 1 [-1, 2] (by decide) (by decide +kernel) (by decide +kernel)
  refine ⟨?_, fun f hf => again none _ f hf _ _, packed.trans ones.symm⟩
  rw [fields]
  rfl

end Wire
end TensorGraph
