import TensorGraph.Proofs.Wire.Field

/-!
# Fields in a row

Input:

* the step of a reader, which changes a state by each field, and the bytes of some fields.

Algorithm:

* bytes take a reader from one state to another, whatever follows them, when their fields do so one
  after the other (`Reads`).

Results:

* a rule for each way to write a field;
* what a reader gives when the bytes of a whole message take it to a state (`Reads.foldFields`).
-/

namespace TensorGraph
namespace Wire

/-! ## Values -/

theorem fromUTF8?_utf8 (s : String) : String.fromUTF8? ⟨(utf8 s).toArray⟩ = some s := by
  have same : (⟨(utf8 s).toArray⟩ : ByteArray) = s.toUTF8 := by
    unfold utf8
    rw [Array.toArray_toList]
  rw [same]
  have valid : s.toUTF8.IsValidUTF8 := s.isValidUTF8
  unfold String.fromUTF8?
  rw [dif_pos valid]
  rfl

/-- Signed numbers are extended to 64 bits and cut again. -/
theorem toInt32_toUInt64 (v : Int32) : v.toInt64.toUInt64.toUInt32.toInt32 = v := by
  refine Int32.toBitVec_inj.1 ?_
  change (v.toBitVec.signExtend 64).setWidth 32 = v.toBitVec
  rw [← BitVec.signExtend_eq_setWidth_of_le _ (by decide)]
  exact congrArg Int32.toBitVec (Int32.toInt32_toInt64 v)

namespace Field

variable {number : Nat} {raw payload : Bytes} {context : Option String}

theorem bytes_len : bytes ⟨number, .len payload, raw, context⟩ = .ok ⟨payload, rfl⟩ := rfl

theorem string_utf8 {s : String} : string ⟨number, .len (utf8 s), raw, context⟩ = .ok s := by
  unfold string
  rw [bytes_len, ok_bind, fromUTF8?_utf8]

theorem int64_varint {v : Int64} :
    int64 ⟨number, .varint v.toUInt64, raw, context⟩ = .ok v := by
  change Except.ok v.toUInt64.toInt64 = _
  rw [Int64.toInt64_toUInt64]

theorem int32_varint {v : Int32} :
    int32 ⟨number, .varint v.toInt64.toUInt64, raw, context⟩ = .ok v :=
  congrArg Except.ok (toInt32_toUInt64 v)

theorem packedVarints_write {f : Field} (vs : List UInt64) :
    f.packedVarints (vs.flatMap fun v => Varint.write v.toNat) = .ok vs := by
  induction vs with
  | nil =>
      rw [List.flatMap_nil, packedVarints]
      rfl
  | cons v rest ih =>
      have hread := Varint.read_write v.toNat_lt (rest.flatMap fun v => Varint.write v.toNat)
      have hne : (Varint.write v.toNat ++ rest.flatMap fun v => Varint.write v.toNat).isEmpty =
          false := by
        have := Varint.size_pos v.toNat
        rw [← Varint.length_write] at this
        rw [List.isEmpty_eq_false_iff]
        exact List.append_ne_nil_of_left_ne_nil (List.ne_nil_of_length_pos this) _
      rw [List.flatMap_cons, packedVarints, hne, if_neg Bool.false_ne_true]
      split
      · rename_i heq
        rw [hread] at heq
        cases heq
      · rename_i heq
        rw [hread] at heq
        cases heq
        rw [ih, UInt64.ofNat_toNat]
        rfl

theorem varints_packed {vs : List UInt64} :
    varints ⟨number, .len (vs.flatMap fun v => Varint.write v.toNat), raw, context⟩ = .ok vs :=
  packedVarints_write vs

theorem floats_packed {vs : List UInt32} :
    floats ⟨number, .len (vs.flatMap fun v => toLittleEndian 4 v.toNat), raw, context⟩ =
      .ok vs := by
  have width : ∀ v : UInt32, (toLittleEndian 4 v.toNat).length = 3 + 1 := fun v =>
    length_toLittleEndian 4 _
  have hdigits : ∀ v : UInt32, UInt32.ofNat (littleEndian (toLittleEndian 4 v.toNat)) = v := by
    intro v
    rw [littleEndian_toLittleEndian v.toNat_lt, UInt32.ofNat_toNat]
  unfold floats
  dsimp only
  rw [length_flatMap_eq width, if_pos (Nat.mul_mod_right _ _), chunks_flatMap width, List.map_map]
  congr 1
  exact (List.map_congr_left fun v _ => hdigits v).trans (List.map_id _)

theorem doubles_packed {vs : List UInt64} :
    doubles ⟨number, .len (vs.flatMap fun v => toLittleEndian 8 v.toNat), raw, context⟩ =
      .ok vs := by
  have width : ∀ v : UInt64, (toLittleEndian 8 v.toNat).length = 7 + 1 := fun v =>
    length_toLittleEndian 8 _
  have hdigits : ∀ v : UInt64, UInt64.ofNat (littleEndian (toLittleEndian 8 v.toNat)) = v := by
    intro v
    rw [littleEndian_toLittleEndian v.toNat_lt, UInt64.ofNat_toNat]
  unfold doubles
  dsimp only
  rw [length_flatMap_eq width, if_pos (Nat.mul_mod_right _ _), chunks_flatMap width, List.map_map]
  congr 1
  exact (List.map_congr_left fun v _ => hdigits v).trans (List.map_id _)

end Field

/-- Whether a value that is written as a field with a number is read back, in a message that is short
enough to be read. -/
structure Legible {α : Type} (number : Nat) (emit : α → Bytes) (value : α → FieldValue)
    (get : Field → Except DecodeError α) (x : α) : Prop where
  next : (emit x).length < 2 ^ 64 → ∀ context rest, Field.next context (emit x ++ rest) =
    .ok (some (⟨number, value x, emit x, context⟩, rest))
  get : (emit x).length < 2 ^ 64 → ∀ raw context, get ⟨number, value x, raw, context⟩ = .ok x

namespace Legible

variable {α : Type} {number : Nat}

theorem varint (hn : number < 2 ^ 61) {make : α → UInt64} {get : Field → Except DecodeError α}
    {x : α} (h : ∀ raw context, get ⟨number, .varint (make x), raw, context⟩ = .ok x) :
    Legible number (fun x => Emit.varint number (make x)) (fun x => .varint (make x)) get x := by
  refine ⟨fun _ => Field.next_tag (by decide) hn fun rest => ?_, fun _ => h⟩
  rw [readValue, Varint.read_write (make x).toNat_lt]
  simp only [Except.map, UInt64.ofNat_toNat]

theorem int64 (hn : number < 2 ^ 61) {x : Int64} :
    Legible number (Emit.int64 number) (fun x => .varint x.toUInt64) Field.int64 x :=
  varint hn fun _ _ => Field.int64_varint

theorem int32 (hn : number < 2 ^ 61) {x : Int32} :
    Legible number (Emit.int32 number) (fun x => .varint x.toInt64.toUInt64) Field.int32 x :=
  varint hn fun _ _ => Field.int32_varint

theorem fixed32 (hn : number < 2 ^ 61) {make : α → UInt32} {get : Field → Except DecodeError α}
    {x : α} (h : ∀ raw context, get ⟨number, .fixed32 (make x), raw, context⟩ = .ok x) :
    Legible number (fun x => Emit.fixed32 number (make x)) (fun x => .fixed32 (make x)) get x := by
  refine ⟨fun _ => Field.next_tag (by decide) hn fun rest => ?_, fun _ => h⟩
  have hdigits : littleEndian (toLittleEndian 4 (make x).toNat) = (make x).toNat :=
    littleEndian_toLittleEndian (make x).toNat_lt
  rw [readValue, take_append (length_toLittleEndian 4 _)]
  simp only [Except.map, hdigits, UInt32.ofNat_toNat]

/-- Anything that is written as bytes with their length. -/
theorem len (hn : number < 2 ^ 61) {make : α → Bytes} {get : Field → Except DecodeError α} {x : α}
    (h : (make x).length < 2 ^ 64 →
      ∀ raw context, get ⟨number, .len (make x), raw, context⟩ = .ok x) :
    Legible number (fun x => Emit.bytes number (make x)) (fun x => .len (make x)) get x := by
  have short : (Emit.bytes number (make x)).length < 2 ^ 64 → (make x).length < 2 ^ 64 := by
    intro hlen
    unfold Emit.bytes at hlen
    rw [List.length_append] at hlen
    omega
  refine ⟨fun hlen context rest => ?_, fun hlen => h (short hlen)⟩
  unfold Emit.bytes
  rw [List.append_assoc (tag number 2)]
  refine Field.next_tag (by decide) hn (fun rest => ?_) context rest
  rw [readValue, List.append_assoc, Varint.read_write (short hlen), ok_bind]
  dsimp only
  rw [take_append rfl]
  rfl

theorem string (hn : number < 2 ^ 61) {x : String} :
    Legible number (Emit.string number) (fun x => .len (utf8 x)) Field.string x :=
  len hn fun _ _ _ => Field.string_utf8

theorem bytes (hn : number < 2 ^ 61) {x : Bytes} :
    Legible number (Emit.bytes number) .len (fun f => f.bytes.map Subtype.val) x :=
  len hn fun _ _ _ => rfl

theorem varints (hn : number < 2 ^ 61) {vs : List UInt64} :
    Legible number (fun vs => Emit.bytes number (vs.flatMap fun v => Varint.write v.toNat))
      (fun vs => .len (vs.flatMap fun v => Varint.write v.toNat)) Field.varints vs :=
  len hn fun _ _ _ => Field.varints_packed

theorem floats (hn : number < 2 ^ 61) {vs : List UInt32} :
    Legible number (fun vs => Emit.bytes number (vs.flatMap fun v => toLittleEndian 4 v.toNat))
      (fun vs => .len (vs.flatMap fun v => toLittleEndian 4 v.toNat)) Field.floats vs :=
  len hn fun _ _ _ => Field.floats_packed

theorem doubles (hn : number < 2 ^ 61) {vs : List UInt64} :
    Legible number (fun vs => Emit.bytes number (vs.flatMap fun v => toLittleEndian 8 v.toNat))
      (fun vs => .len (vs.flatMap fun v => toLittleEndian 8 v.toNat)) Field.doubles vs :=
  len hn fun _ _ _ => Field.doubles_packed

end Legible

/-! ## Messages -/

/-- Whether bytes take a reader from one state to another in every message that is short enough to be
read, whatever follows them. -/
structure Reads {σ : Type} (context : Option String) (step : σ → Field → Except DecodeError σ)
    (input : Bytes) (s s' : σ) : Prop where
  run : ∀ total rest (fits : (input ++ rest).length ≤ total) (fits' : rest.length ≤ total),
    total < 2 ^ 64 →
      foldRest context total (fun s f _ => step s f) s (input ++ rest) fits =
        foldRest context total (fun s f _ => step s f) s' rest fits'

namespace Reads

variable {σ α : Type} {context : Option String} {step : σ → Field → Except DecodeError σ}
  {input input' : Bytes} {s s' s'' : σ} {number : Nat}

theorem nil : Reads context step [] s s := ⟨fun _ _ _ _ _ => rfl⟩

theorem append (h : Reads context step input s s') (h' : Reads context step input' s' s'') :
    Reads context step (input ++ input') s s'' := by
  refine ⟨fun total rest fits fits' small => ?_⟩
  have fits'' : (input' ++ rest).length ≤ total := by
    rw [List.length_append] at fits ⊢
    rw [List.length_append] at fits
    omega
  rw [← h'.run total rest fits'' fits' small, ← h.run total (input' ++ rest) ?_ fits'' small]
  · congr 1
    exact List.append_assoc _ _ _
  · rwa [← List.append_assoc]

/-- One field takes a reader one step further. -/
theorem field {value : FieldValue}
    (read : input.length < 2 ^ 64 → ∀ rest, Field.next context (input ++ rest) =
      .ok (some (⟨number, value, input, context⟩, rest)))
    (h : input.length < 2 ^ 64 → step s ⟨number, value, input, context⟩ = .ok s') :
    Reads context step input s s' := by
  refine ⟨fun total rest fits fits' small => ?_⟩
  have short : input.length < 2 ^ 64 := by
    rw [List.length_append] at fits
    omega
  rw [foldRest]
  split
  · rename_i heq
    rw [read short] at heq
    cases heq
  · rename_i heq
    rw [read short] at heq
    cases heq
  · rename_i heq
    have same := heq
    rw [read short] at same
    cases same
    dsimp only
    split
    · rename_i herr
      rw [h short] at herr
      cases herr
    · rename_i hok
      rw [h short] at hok
      cases hok
      rfl

/-- The whole message is read. -/
theorem foldFields (h : Reads context step input s s') (fits : input.length < 2 ^ 64) :
    foldFields context input s (fun s f _ => step s f) = .ok s' := by
  have := h.run input.length [] (by rw [List.append_nil]) (Nat.zero_le _) fits
  simp only [List.append_nil] at this
  unfold Wire.foldFields
  rw [this, foldRest]
  rfl

/-- An optional field. -/
theorem optional {emit : α → Bytes} {value : α → FieldValue} {get : Field → Except DecodeError α}
    {f : σ → Option α → σ} {o : Option α}
    (legible : ∀ x, o = some x → Legible number emit value get x)
    (h : ∀ s x raw, step s ⟨number, value x, raw, context⟩ =
      get ⟨number, value x, raw, context⟩ >>= fun x => .ok (f s (some x)))
    (start : f s none = s) : Reads context step (Emit.optional emit o) s (f s o) := by
  cases o with
  | none =>
      rw [start]
      exact nil
  | some x =>
      refine field (fun short => (legible x rfl).next short context) fun short => ?_
      rw [h, (legible x rfl).get short, ok_bind]

/-- A list with a field for each element. -/
theorem flatMap {emit : α → Bytes} {value : α → FieldValue} {get : Field → Except DecodeError α}
    {f : σ → List α → σ} {xs : List α} (legible : ∀ x ∈ xs, Legible number emit value get x)
    (h : ∀ s seen x raw, step (f s seen) ⟨number, value x, raw, context⟩ =
      get ⟨number, value x, raw, context⟩ >>= fun x => .ok (f s (seen ++ [x])))
    (start : f s [] = s) : Reads context step (xs.flatMap emit) s (f s xs) := by
  have all : ∀ seen : List α,
      Reads context step (xs.flatMap emit) (f s seen) (f s (seen ++ xs)) := by
    induction xs with
    | nil =>
        intro seen
        rw [List.append_nil]
        exact nil
    | cons x rest ih =>
        intro seen
        have hx := legible x List.mem_cons_self
        rw [List.flatMap_cons, List.append_cons]
        refine append (field (fun short => hx.next short context) fun short => ?_)
          (ih (fun y hy => legible y (List.mem_cons_of_mem _ hy)) _)
        rw [h, hx.get short, ok_bind]
  have := all []
  rwa [start] at this

/-- A packed list, which is not written when it is empty. -/
theorem packed {β : Type} {emit : List β → Bytes} {value : List β → FieldValue}
    {get : Field → Except DecodeError (List β)} {encode : α → β} {make : β → α}
    {f : σ → List α → σ} {xs : List α} (legible : Legible number emit value get (xs.map encode))
    (inverse : ∀ x, make (encode x) = x)
    (h : ∀ s vs raw, step (f s []) ⟨number, value vs, raw, context⟩ =
      get ⟨number, value vs, raw, context⟩ >>= fun vs => .ok (f s (vs.map make)))
    (start : f s [] = s) :
    Reads context step (if (xs.map encode).isEmpty then [] else emit (xs.map encode)) s
      (f s xs) := by
  cases hxs : xs with
  | nil =>
      rw [start]
      exact nil
  | cons x rest =>
      rw [← hxs]
      have hne : (xs.map encode).isEmpty = false := by simp [hxs]
      have same : (xs.map encode).map make = xs := by
        rw [List.map_map]
        exact (List.map_congr_left fun x _ => inverse x).trans (List.map_id _)
      have first := h s (xs.map encode)
      rw [start] at first
      rw [hne, if_neg Bool.false_ne_true]
      refine field (fun short => legible.next short context) fun short => ?_
      rw [first, legible.get short, ok_bind, same]

theorem varints {f : σ → List UInt64 → σ} {vs : List UInt64} (hn : number < 2 ^ 61)
    (h : ∀ s vs raw, step (f s []) ⟨number, .len vs, raw, context⟩ =
      Field.varints ⟨number, .len vs, raw, context⟩ >>= fun vs => .ok (f s vs))
    (start : f s [] = s) : Reads context step (Emit.varints number vs) s (f s vs) := by
  have first : ∀ payload raw, step s ⟨number, .len payload, raw, context⟩ =
      Field.varints ⟨number, .len payload, raw, context⟩ >>= fun vs => .ok (f s vs) := by
    intro payload raw
    rw [← h, start]
  cases vs with
  | nil =>
      rw [start]
      exact nil
  | cons v rest =>
      refine field (fun short => (Legible.varints hn).next short context) fun short => ?_
      rw [first, (Legible.varints hn).get short, ok_bind]

/-- Fields with unknown numbers are kept as they are. -/
theorem unknown {known : List Nat} {f : σ → Bytes → σ} (h : Unknown known input)
    (keep : ∀ s seen, ∀ g : Field, g.number ∉ known →
      step (f s seen) g = .ok (f s (seen ++ g.raw)))
    (start : f s [] = s) : Reads context step input s (f s input) := by
  obtain ⟨raws, rfl, hraws⟩ := h
  have all : ∀ seen : Bytes,
      Reads context step raws.flatten (f s seen) (f s (seen ++ raws.flatten)) := by
    induction raws with
    | nil =>
        intro seen
        rw [List.flatten_nil, List.append_nil]
        exact nil
    | cons raw rest ih =>
        intro seen
        obtain ⟨number, hnumber, hfield⟩ := hraws raw List.mem_cons_self
        obtain ⟨value, hnext⟩ := hfield
        rw [List.flatten_cons, ← List.append_assoc]
        exact (field (fun _ => hnext context) fun _ => keep s seen _ hnumber).append
          (ih (fun r hr => hraws r (List.mem_cons_of_mem _ hr)) _)
  have := all []
  rwa [start] at this

end Reads

end Wire
end TensorGraph
