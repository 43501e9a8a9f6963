import Mathlib.Data.Nat.Digits.Defs
import TensorGraph.Proofs.Storage.Storable
import TensorGraph.Proofs.Tensor.Alike
import TensorGraph.Proofs.Tensor.Counted
import TensorGraph.Proofs.Wire.Field
import TensorGraph.Tensor.Storage

/-!
# Stored tensors are read back

Input:

* a tensor that was computed or read, with sizes that fit signed 64 bits (`Tensor.Sized`), or the message of
  a tensor, with elements that its bytes or its typed field hold.

In raw bytes an element is a group of bytes of its width, which stand for a number with the least significant
byte first.  Floating-point elements are this number by their bits, and integers are it modulo the size of
their type.  The field of 32-bit integers holds narrower types modulo their size as well.  A boolean is false
if its number is 0.

Main results:

* `Tensor.storedElements_of_inRaw` and `Tensor.storedElements_of_inField`: the elements are read;
* `Elements.inRaw_rawBytes`: the raw bytes of elements hold them;
* the message of a tensor is read as a tensor with the same elements (`Tensor.ofMessage_toMessage`),
  and it is clean (`Tensor.Storable.toMessage`);
* nothing is lost when tensors are stored, when they are read, and when their elements are moved from raw
  bytes into a typed field (`Tensor.survives_storing`).
-/

namespace TensorGraph

open Wire (Bytes littleEndian toLittleEndian chunks littleEndian_toLittleEndian length_toLittleEndian)

/-! ## Groups of bytes -/

/-- The number that bytes stand for, least significant byte first. -/
def Wire.value (bytes : Bytes) : Nat := Nat.ofDigits 256 (bytes.map UInt8.toNat)

theorem Wire.littleEndian_eq_value (bytes : Bytes) : littleEndian bytes = value bytes := by
  induction bytes with
  | nil => rfl
  | cons b rest ih => rw [littleEndian, ih, value, value, List.map_cons, Nat.ofDigits_cons]

/-- Groups of the same length that are put together are cut out again. -/
theorem Wire.chunks_flatten {width : Nat} {groups : List Bytes}
    (h : ∀ b ∈ groups, b.length = width + 1) : chunks width groups.flatten = groups := by
  induction groups with
  | nil => simp [chunks]
  | cons b rest ih =>
      have first := h b List.mem_cons_self
      rw [List.flatten_cons, chunks, if_pos (by rw [List.length_append]; omega),
        List.take_left' first, List.drop_left' first, ih fun b hb => h b (List.mem_cons_of_mem _ hb)]

/-- Whether bytes are groups of a width, one for each element, which stand for related numbers. -/
def InGroups {α : Type} (width : Nat) (R : Nat → α → Prop) (raw : Bytes) (xs : Array α) : Prop :=
  ∃ groups : List Bytes, raw = groups.flatten ∧ (∀ b ∈ groups, b.length = width) ∧
    List.Forall₂ (fun b x => R (Wire.value b) x) groups xs.toList

namespace InGroups

variable {α : Type} {width : Nat} {R : Nat → α → Prop} {raw : Bytes} {xs : Array α}

/-- Elements that are read from related numbers are those that the bytes hold. -/
theorem rawElements_eq (make : Nat → α) (h : InGroups (width + 1) R raw xs)
    (read : ∀ n x, R n x → make n = x) : Tensor.rawElements width make raw = some xs := by
  obtain ⟨groups, rfl, widths, all⟩ := h
  have length : groups.flatten.length = groups.length * (width + 1) := by
    rw [← List.flatMap_id, length_flatMap_of_length (f := id) widths]
  unfold Tensor.rawElements
  rw [length, Nat.mul_mod_left, if_pos rfl, Wire.chunks_flatten widths]
  simp only [Wire.littleEndian_eq_value]
  rw [← eq_map_of_forall₂ (all.imp fun b x hb => (read _ x hb).symm)]

/-- Groups of one byte are the bytes. -/
theorem map_eq (make : UInt8 → α) (h : InGroups 1 R raw xs)
    (read : ∀ b x, R b.toNat x → make b = x) : raw.map make = xs.toList := by
  obtain ⟨groups, rfl, widths, all⟩ := h
  generalize xs.toList = l at all
  induction all with
  | nil => rfl
  | @cons b x rest l first _ ih =>
      obtain ⟨byte, rfl⟩ := List.length_eq_one_iff.1 (widths b List.mem_cons_self)
      have here : R byte.toNat x := by simpa [Wire.value] using first
      rw [List.flatten_cons, List.map_append, ih fun b hb => widths b (List.mem_cons_of_mem _ hb),
        List.map_singleton, read _ _ here, List.singleton_append]

theorem of_flatMap {f : α → Bytes} (length : ∀ x, (f x).length = width)
    (value : ∀ x, R (Wire.value (f x)) x) (xs : Array α) :
    InGroups width R (xs.toList.flatMap f) xs := by
  refine ⟨xs.toList.map f, rfl, ?_, ?_⟩
  · intro b hb
    obtain ⟨x, -, rfl⟩ := List.mem_map.1 hb
    exact length x
  · rw [List.forall₂_map_left_iff, List.forall₂_same]
    exact fun x _ => value x

theorem of_map {f : α → UInt8} (value : ∀ x, R (f x).toNat x) (xs : Array α) :
    InGroups 1 R (xs.toList.map f) xs := by
  have single : ∀ x, R (Wire.value [f x]) x := fun x => by simpa [Wire.value] using value x
  rw [List.map_eq_flatMap]
  exact of_flatMap (f := fun x => [f x]) (fun _ => rfl) single xs

end InGroups

/-! ## Integers -/

theorem toInt_toInt64_eq {n : Nat} {x : Int64} (h : (n : Int).bmod (2 ^ 64) = x.toInt) :
    (UInt64.ofNat n).toInt64 = x := by
  rw [← Int64.toInt_inj, UInt64.toInt64_ofNat', Int64.toInt_ofNat']
  exact h

theorem toInt_toInt32_eq {n : Nat} {x : Int32} (h : (n : Int).bmod (2 ^ 32) = x.toInt) :
    (UInt32.ofNat n).toInt32 = x := by
  rw [← Int32.toInt_inj, UInt32.toInt32_ofNat', Int32.toInt_ofNat']
  exact h

theorem toInt8_eq {b : UInt8} {x : Int8} (h : (b.toNat : Int).bmod (2 ^ 8) = x.toInt) :
    b.toInt8 = x := by
  rw [← Int8.toInt_inj, ← h]
  exact BitVec.toInt_eq_toNat_bmod _

theorem narrow_eq {v : Int32} {x : UInt8} (h : v.toInt % 2 ^ 8 = (x.toNat : Int)) :
    v.toUInt32.toUInt8 = x := by
  have signed : v.toInt = (v.toUInt32.toNat : Int).bmod (2 ^ 32) := BitVec.toInt_eq_toNat_bmod _
  rw [← UInt8.toNat_inj, UInt32.toNat_toUInt8]
  rw [signed, Int.bmod_def] at h
  split at h <;> omega

/-! ## Elements -/

namespace Elements

/-- Whether raw bytes hold elements. -/
def InRaw (raw : Bytes) : Elements → Prop
  | .float32 xs => InGroups 4 (fun n x => n = x.bits.toNat) raw xs
  | .float64 xs => InGroups 8 (fun n x => n = x.bits.toNat) raw xs
  | .int64 xs => InGroups 8 (fun n x => (n : Int).bmod (2 ^ 64) = x.toInt) raw xs
  | .int32 xs => InGroups 4 (fun n x => (n : Int).bmod (2 ^ 32) = x.toInt) raw xs
  | .int8 xs => InGroups 1 (fun n x => (n : Int).bmod (2 ^ 8) = x.toInt) raw xs
  | .uint8 xs => InGroups 1 (fun n x => n = x.toNat) raw xs
  | .bool xs => InGroups 1 (fun n x => x = true ↔ n ≠ 0) raw xs
  | .opaqueOf _ => False

/-- Whether the typed field of a message holds elements. -/
def InField (m : Message.Tensor) : Elements → Prop
  | .float32 xs => m.floatData = xs.toList
  | .float64 xs => m.doubleData = xs.toList
  | .int64 xs => m.int64Data = xs.toList
  | .int32 xs => m.int32Data = xs.toList
  | .int8 xs => List.Forall₂ (fun v x => v.toInt.bmod (2 ^ 8) = x.toInt) m.int32Data xs.toList
  | .uint8 xs => List.Forall₂ (fun v x => v.toInt % 2 ^ 8 = (x.toNat : Int)) m.int32Data xs.toList
  | .bool xs => List.Forall₂ (fun v x => x = true ↔ v ≠ 0) m.int32Data xs.toList
  | .opaqueOf _ => False

theorem InRaw.isEvaluable {raw : Bytes} {e : Elements} (h : e.InRaw raw) : e.isEvaluable := by
  cases e with
  | opaqueOf type => exact h.elim
  | _ => rfl

/-- The raw bytes of elements hold them. -/
theorem inRaw_rawBytes {e : Elements} (evaluable : e.isEvaluable) : e.InRaw (Tensor.rawBytes e) := by
  have digits : ∀ {count n : Nat}, n < 256 ^ count → Wire.value (toLittleEndian count n) = n := by
    intro count n h
    rw [← Wire.littleEndian_eq_value, littleEndian_toLittleEndian h]
  cases e with
  | float32 xs =>
      rw [InRaw, Tensor.rawBytes]
      refine InGroups.of_flatMap (f := fun x => toLittleEndian 4 x.bits.toNat)
        (fun _ => length_toLittleEndian 4 _) (fun x => ?_) xs
      exact digits x.bits.toNat_lt
  | float64 xs =>
      rw [InRaw, Tensor.rawBytes]
      refine InGroups.of_flatMap (f := fun x => toLittleEndian 8 x.bits.toNat)
        (fun _ => length_toLittleEndian 8 _) (fun x => ?_) xs
      exact digits x.bits.toNat_lt
  | int64 xs =>
      rw [InRaw, Tensor.rawBytes]
      refine InGroups.of_flatMap (f := fun x => toLittleEndian 8 x.toUInt64.toNat)
        (fun _ => length_toLittleEndian 8 _) (fun x => ?_) xs
      rw [digits x.toUInt64.toNat_lt]
      exact (BitVec.toInt_eq_toNat_bmod x.toBitVec).symm
  | int32 xs =>
      rw [InRaw, Tensor.rawBytes]
      refine InGroups.of_flatMap (f := fun x => toLittleEndian 4 x.toUInt32.toNat)
        (fun _ => length_toLittleEndian 4 _) (fun x => ?_) xs
      rw [digits x.toUInt32.toNat_lt]
      exact (BitVec.toInt_eq_toNat_bmod x.toBitVec).symm
  | int8 xs =>
      rw [InRaw, Tensor.rawBytes]
      refine InGroups.of_map (f := Int8.toUInt8) (fun x => ?_) xs
      exact (BitVec.toInt_eq_toNat_bmod x.toBitVec).symm
  | uint8 xs =>
      have held := InGroups.of_map (R := fun n (x : UInt8) => n = x.toNat) (f := id) (fun _ => rfl) xs
      rwa [List.map_id] at held
  | bool xs =>
      rw [InRaw, Tensor.rawBytes]
      refine InGroups.of_map (f := fun x => if x then 1 else 0) (fun x => ?_) xs
      cases x <;> simp
  | opaqueOf type => cases evaluable

end Elements

namespace Tensor

open Elements

variable {e : Elements} {m : Message.Tensor}

/-- Elements that raw bytes hold are read. -/
theorem storedElements_of_inRaw {raw : Bytes} (stored : m.rawData = some raw) (h : e.InRaw raw) :
    storedElements e.elementType m = some e := by
  cases e with
  | opaqueOf type => exact h.elim
  | float32 xs =>
      rw [InRaw] at h
      have read := InGroups.rawElements_eq (fun n => Binary32.mk (.ofNat n)) h fun n x hx => by
        rw [hx, UInt32.ofNat_toNat]
      simp only [Elements.elementType, storedElements, stored, read, Option.map_some]
  | float64 xs =>
      rw [InRaw] at h
      have read := InGroups.rawElements_eq (fun n => Binary64.mk (.ofNat n)) h fun n x hx => by
        rw [hx, UInt64.ofNat_toNat]
      simp only [Elements.elementType, storedElements, stored, read, Option.map_some]
  | int64 xs =>
      rw [InRaw] at h
      have read := InGroups.rawElements_eq _ h fun n x => toInt_toInt64_eq
      simp only [Elements.elementType, storedElements, stored, read, Option.map_some]
  | int32 xs =>
      rw [InRaw] at h
      have read := InGroups.rawElements_eq _ h fun n x => toInt_toInt32_eq
      simp only [Elements.elementType, storedElements, stored, read, Option.map_some]
  | int8 xs =>
      rw [InRaw] at h
      have read := InGroups.map_eq UInt8.toInt8 h fun b x => toInt8_eq
      simp only [Elements.elementType, storedElements, stored, read]
  | uint8 xs =>
      rw [InRaw] at h
      have read := InGroups.map_eq id h fun b x hx => UInt8.toNat_inj.1 hx
      rw [List.map_id] at read
      simp only [Elements.elementType, storedElements, stored, read]
  | bool xs =>
      rw [InRaw] at h
      have read := InGroups.map_eq (· != 0) h fun b x hx => by
        rw [Bool.eq_iff_iff, hx, bne_iff_ne, ne_eq, ne_eq, ← UInt8.toNat_inj]
        rfl
      simp only [Elements.elementType, storedElements, stored, read]

/-- Elements that the typed field holds are read. -/
theorem storedElements_of_inField (stored : m.rawData = none) (h : e.InField m) :
    storedElements e.elementType m = some e := by
  cases e with
  | opaqueOf type => exact h.elim
  | float32 xs => simp only [Elements.elementType, storedElements, stored, show m.floatData = _ from h]
  | float64 xs => simp only [Elements.elementType, storedElements, stored, show m.doubleData = _ from h]
  | int64 xs => simp only [Elements.elementType, storedElements, stored, show m.int64Data = _ from h]
  | int32 xs => simp only [Elements.elementType, storedElements, stored, show m.int32Data = _ from h]
  | int8 xs =>
      rw [InField] at h
      have read : xs.toList = m.int32Data.map Int32.toInt8 :=
        eq_map_of_forall₂ (h.imp fun v x hv => by rw [← Int8.toInt_inj, Int32.toInt_toInt8, hv])
      simp only [Elements.elementType, storedElements, stored, ← read]
  | uint8 xs =>
      rw [InField] at h
      have read := eq_map_of_forall₂ (h.imp fun v x hv => (narrow_eq hv).symm)
      simp only [Elements.elementType, storedElements, stored, ← read]
  | bool xs =>
      rw [InField] at h
      have read : xs.toList = m.int32Data.map (· != 0) :=
        eq_map_of_forall₂ (h.imp fun v x hv => by rw [Bool.eq_iff_iff, hv, bne_iff_ne])
      simp only [Elements.elementType, storedElements, stored, ← read]

end Tensor

namespace Tensor

open Wire (Bytes)

/-- Whether the sizes of a tensor can be stored. -/
def Sized (t : Tensor) : Prop := ∀ d ∈ t.shape, d < 2 ^ 63

/-! ## Sizes -/

theorem toNat_toInt_ofNat {d : Nat} (h : d < 2 ^ 63) :
    0 ≤ Int64.ofNat d ∧ (Int64.ofNat d).toInt.toNat = d := by
  have value : (Int64.ofNat d).toInt = d := Int64.toInt_ofNat_of_lt h
  refine ⟨?_, by rw [value, Int.toNat_natCast]⟩
  rw [Int64.le_iff_toInt_le, value]
  exact Int.natCast_nonneg d

/-- The sizes of a shape are read back. -/
theorem storedShape_ofNat {shape : List Nat} (h : ∀ d ∈ shape, d < 2 ^ 63) :
    storedShape (shape.map Int64.ofNat) = some shape := by
  have fits : (shape.map Int64.ofNat).all (0 ≤ ·) := by
    rw [List.all_eq_true]
    intro v hv
    obtain ⟨d, hd, rfl⟩ := List.mem_map.1 hv
    exact decide_eq_true (toNat_toInt_ofNat (h d hd)).1
  unfold storedShape
  rw [if_pos fits, List.map_map]
  refine congrArg some ((List.map_congr_left fun d hd => ?_).trans (List.map_id shape))
  exact (toNat_toInt_ofNat (h d hd)).2

/-! ## Tensors -/

/-- A message with available elements is read as the tensor of these elements. -/
theorem ofMessage_eq_ok {m : Message.Tensor} {shape : List Nat} {e : Elements}
    (dims : storedShape m.dims = some shape) (type : m.dataType = some e.elementType.code)
    (inside : m.dataLocation ≠ some Message.externalLocation)
    (stored : storedElements e.elementType m = some e) (count : e.count = elementCount shape) :
    ofMessage m = .ok { shape := shape, elements := e, source := some m } := by
  refine ofMessage_eq_ok_iff.2 ⟨rfl, dims, e.elementType, ?_, Or.inr ⟨inside, stored, fun _ => count⟩⟩
  rw [type, Option.getD_some, ElementType.ofCode?_code]

/-- A stored tensor is read in the same way under another name. -/
theorem ofMessage_withName {m : Message.Tensor} {t : Tensor} (h : ofMessage m = .ok t)
    (name : Option String) :
    ofMessage { m with name := name } = .ok { t with source := some { m with name := name } } := by
  have same : ∀ type, storedElements type { m with name := name } = storedElements type m := by
    intro type
    unfold storedElements
    rfl
  obtain ⟨-, dims, type, htype, stored⟩ := ofMessage_eq_ok_iff.1 h
  refine ofMessage_eq_ok_iff.2 ⟨rfl, dims, type, htype, stored.imp_right fun ⟨inside, he, counted⟩ => ?_⟩
  exact ⟨inside, (same type).trans he, counted⟩

/-- A tensor is read from the message that it is stored as, with the same elements. -/
theorem ofMessage_toMessage {t : Tensor} (evaluable : t.isEvaluable) (counted : t.Counted)
    (sized : t.Sized) (origin : ∀ m, t.source = some m → ofMessage m = .ok t) (name : Option String) :
    ofMessage (t.toMessage name) = .ok { t with source := some (t.toMessage name) } := by
  unfold toMessage
  cases source : t.source with
  | none =>
      exact ofMessage_eq_ok (storedShape_ofNat sized) rfl (by simp)
        (storedElements_of_inRaw rfl (Elements.inRaw_rawBytes evaluable)) (counted evaluable)
  | some m => exact ofMessage_withName (origin m source) name

/-- A tensor that can be stored can be read afterwards. -/
theorem Storable.ofMessage_toMessage {t : Tensor} (h : t.Storable) (sized : t.Sized)
    (name : Option String) : ∃ t', ofMessage (t.toMessage name) = .ok t' := by
  rcases h with computed | ⟨m, source, -, read⟩
  · refine ⟨_, Tensor.ofMessage_toMessage computed.isEvaluable (fun _ => computed.count) sized ?_ name⟩
    simp [computed.source]
  · unfold toMessage
    rw [source]
    exact ⟨_, ofMessage_withName read name⟩

/-- The message of a stored tensor is clean. -/
theorem Storable.toMessage {t : Tensor} (h : t.Storable) (name : Option String) :
    (t.toMessage name).Clean := by
  unfold Tensor.toMessage
  rcases h with computed | ⟨m, source, clean, -⟩
  · rw [computed.source]
    exact ⟨Wire.unknown_nil _, by simp⟩
  · rw [source]
    exact ⟨clean.unknown, clean.externalData⟩

/-! ## Contents -/

/-- Tensors whose elements are available have the same contents if these and their shapes are the same. -/
theorem sameContents_of_isEvaluable {a b : Tensor} (evaluable : a.isEvaluable)
    (shape : a.shape = b.shape) (elements : a.elements = b.elements) : a.sameContents b := by
  refine sameContents_iff.2 ⟨shape, elements, fun unavailable => ?_⟩
  rw [evaluable] at unavailable
  cases unavailable

theorem storedShape_of_nonneg {dims : List Int64} (nonneg : ∀ d ∈ dims, 0 ≤ d.toInt) :
    storedShape dims = some (dims.map fun d => d.toInt.toNat) := by
  have fits : dims.all (0 ≤ ·) := by
    rw [List.all_eq_true]
    exact fun d hd => decide_eq_true (Int64.le_iff_toInt_le.2 (nonneg d hd))
  unfold storedShape
  rw [if_pos fits]

/-- **Tensors survive being stored.**  A tensor whose elements are available is read back from its message,
under any name, with its shape and its elements, bit for bit.  A message that can be read as a tensor is
the message of this tensor under its name.  Messages that hold the same elements, one in raw bytes and one
in a typed field, are read as tensors with the same contents. -/
theorem survives_storing :
    (∀ (t : Tensor) (name : Option String), t.isEvaluable → t.Counted → t.Sized →
      (∀ m, t.source = some m → ofMessage m = .ok t) →
        ∃ t', ofMessage (t.toMessage name) = .ok t' ∧ t'.sameContents t ∧ t'.shape = t.shape ∧
          t'.elements = t.elements) ∧
    (∀ (m : Message.Tensor) (t : Tensor), ofMessage m = .ok t → t.toMessage m.name = m) ∧
    ∀ (m n : Message.Tensor) (raw : Bytes) (e : Elements),
      m.dims = n.dims → (∀ d ∈ m.dims, 0 ≤ d.toInt) →
      m.dataType = some e.elementType.code → n.dataType = some e.elementType.code →
      m.dataLocation ≠ some Message.externalLocation → n.dataLocation ≠ some Message.externalLocation →
      m.rawData = some raw → e.InRaw raw → n.rawData = none → e.InField n →
      e.count = elementCount (m.dims.map fun d => d.toInt.toNat) →
        ∃ t t', ofMessage m = .ok t ∧ ofMessage n = .ok t' ∧ t.sameContents t' ∧
          t.elements = e ∧ t'.elements = e := by
  refine ⟨?_, ?_, ?_⟩
  · intro t name evaluable counted sized origin
    refine ⟨_, ofMessage_toMessage evaluable counted sized origin name, ?_, rfl, rfl⟩
    exact sameContents_of_isEvaluable evaluable rfl rfl
  · intro m t read
    rw [toMessage_of_ofMessage read]
  · intro m n raw e dims nonneg type type' inside inside' hraw inRaw unraw inField count
    have shape := storedShape_of_nonneg nonneg
    have read := ofMessage_eq_ok shape type inside (storedElements_of_inRaw hraw inRaw) count
    have read' := ofMessage_eq_ok (dims ▸ shape) type' inside' (storedElements_of_inField unraw inField)
      count
    exact ⟨_, _, read, read', sameContents_of_isEvaluable inRaw.isEvaluable rfl rfl, rfl, rfl⟩

/-- The least 8-bit integer and -1, in raw bytes, and in a field with its sign kept or lost. -/
def leastInRaw : Message.Tensor :=
  { dims := [2, 1], dataType := some Message.TypeCode.int8, name := some "w", rawData := some [128, 255] }

def leastInField : Message.Tensor :=
  { dims := [2, 1], dataType := some Message.TypeCode.int8, name := some "v", int32Data := [-128, 255] }

/-- A negative zero and a signaling NaN survive.  The two integers are read from raw bytes and from the
field, and written back. -/
theorem survives_storing_special :
    (∃ t', ofMessage (toMessage ⟨[2], .float32 #[⟨0x80000000⟩, ⟨0x7f800001⟩], none⟩ (some "x")) = .ok t' ∧
      t'.elements = .float32 #[⟨0x80000000⟩, ⟨0x7f800001⟩]) ∧
    ∃ t t', ofMessage leastInRaw = .ok t ∧ ofMessage leastInField = .ok t' ∧ t.sameContents t' ∧
      t.elements = .int8 #[-128, -1] ∧ t.toMessage (some "w") = leastInRaw ∧
        t'.toMessage (some "v") = leastInField := by
  obtain ⟨stored, restored, alike⟩ := survives_storing
  constructor
  · obtain ⟨t', read, -, -, elements⟩ := stored
      ⟨[2], .float32 #[⟨0x80000000⟩, ⟨0x7f800001⟩], none⟩ (some "x") rfl (fun _ => rfl)
      (by unfold Sized; decide) (by simp)
    exact ⟨t', read, elements⟩
  · have inRaw : (Elements.int8 #[-128, -1]).InRaw [128, 255] :=
      ⟨[[128], [255]], rfl, by decide, by simp [Wire.value]⟩
    have inField : (Elements.int8 #[-128, -1]).InField leastInField := by
      simp [Elements.InField, leastInField]
    obtain ⟨t, t', read, read', same, elements, -⟩ := alike leastInRaw leastInField [128, 255]
      (.int8 #[-128, -1]) rfl (by simp [leastInRaw]) rfl rfl (by decide) (by decide) rfl inRaw rfl inField rfl
    exact ⟨t, t', read, read', same, elements, restored _ _ read, restored _ _ read'⟩

end Tensor
end TensorGraph
