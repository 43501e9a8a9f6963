import TensorGraph.Proofs.Wire.Varint
import TensorGraph.Wire.Emit

/-!
# Reading written fields

Input:

* bytes that start with digits or a field that was written, or that was read from other bytes.

Results:

* a reader gives back the digits (`littleEndian_toLittleEndian`) and the field (`Field.next_tag`)
  that were written, and what follows them;
* what is read does not depend on what follows (`Field.next_local`).
-/

namespace TensorGraph
namespace Wire

/-! ## Digits -/

@[simp]
theorem length_toLittleEndian (count n : Nat) : (toLittleEndian count n).length = count := by
  induction count generalizing n with
  | zero => rfl
  | succ count ih => rw [toLittleEndian, List.length_cons, ih]

theorem littleEndian_toLittleEndian {count n : Nat} (h : n < 256 ^ count) :
    littleEndian (toLittleEndian count n) = n := by
  induction count generalizing n with
  | zero =>
      rw [Nat.pow_zero] at h
      rw [toLittleEndian, littleEndian]
      omega
  | succ count ih =>
      have hrest : n / 256 < 256 ^ count := by
        rw [Nat.pow_succ] at h
        omega
      rw [toLittleEndian, littleEndian, ih hrest, UInt8.toNat_ofNat']
      omega

/-- Groups of bytes of the same length are found again. -/
theorem chunks_flatMap {α : Type} {width : Nat} {f : α → Bytes}
    (h : ∀ x, (f x).length = width + 1) (xs : List α) : chunks width (xs.flatMap f) = xs.map f := by
  induction xs with
  | nil => simp [chunks]
  | cons x rest ih =>
      have hx := h x
      rw [List.flatMap_cons, chunks, if_pos (by rw [List.length_append]; omega),
        List.take_left' hx, List.drop_left' hx, ih, List.map_cons]

theorem length_flatMap_eq {α : Type} {width : Nat} {f : α → Bytes}
    (h : ∀ x, (f x).length = width) (xs : List α) :
    (xs.flatMap f).length = width * xs.length := by
  induction xs with
  | nil => rfl
  | cons x rest ih =>
      rw [List.flatMap_cons, List.length_append, h, ih, List.length_cons]
      ring

/-! ## Fields -/

theorem ok_bind {ε α β : Type} (x : α) (f : α → Except ε β) : (Except.ok x >>= f) = f x := rfl

theorem take_append {count : Nat} {bytes : Bytes} (h : bytes.length = count) (rest : Bytes) :
    take count (bytes ++ rest) = .ok (bytes, rest) := by
  unfold take
  rw [if_pos (by rw [List.length_append]; omega), List.take_left' h, List.drop_left' h]

theorem take_local {count : Nat} {bytes first rest : Bytes}
    (h : take count bytes = .ok (first, rest)) : first.length = count ∧ bytes = first ++ rest := by
  unfold take at h
  split at h
  · rename_i hcount
    cases h
    exact ⟨by rw [List.length_take]; omega, (List.take_append_drop _ _).symm⟩
  · cases h

/-- A value is read in the same way whatever follows it. -/
theorem readValue_local {wireType : Nat} {bytes rest : Bytes} {value : FieldValue}
    (h : readValue wireType bytes = .ok (value, rest)) :
    ∃ raw, bytes = raw ++ rest ∧ ∀ rest', readValue wireType (raw ++ rest') = .ok (value, rest') := by
  unfold readValue at h
  split at h
  · cases hread : Varint.read bytes with
    | error e =>
        rw [hread] at h
        cases h
    | ok p =>
        obtain ⟨v, tail⟩ := p
        rw [hread] at h
        cases h
        obtain ⟨raw, -, rfl, hlocal⟩ := Varint.read_local hread
        refine ⟨raw, rfl, fun rest' => ?_⟩
        rw [readValue, hlocal rest']
        rfl
  · cases htake : take 8 bytes with
    | error e =>
        rw [htake] at h
        cases h
    | ok p =>
        obtain ⟨first, tail⟩ := p
        rw [htake] at h
        cases h
        obtain ⟨hlen, rfl⟩ := take_local htake
        refine ⟨first, rfl, fun rest' => ?_⟩
        rw [readValue, take_append hlen]
        rfl
  · cases hread : Varint.read bytes with
    | error e =>
        rw [hread] at h
        cases h
    | ok p =>
        obtain ⟨count, tail⟩ := p
        rw [hread, ok_bind] at h
        dsimp only at h
        cases htake : take count tail with
        | error e =>
            rw [htake] at h
            cases h
        | ok q =>
            obtain ⟨payload, last⟩ := q
            rw [htake] at h
            cases h
            obtain ⟨raw, -, rfl, hlocal⟩ := Varint.read_local hread
            obtain ⟨hlen, rfl⟩ := take_local htake
            refine ⟨raw ++ payload, (List.append_assoc _ _ _).symm, fun rest' => ?_⟩
            rw [readValue, List.append_assoc, hlocal (payload ++ rest'), ok_bind]
            dsimp only
            rw [take_append hlen]
            rfl
  · cases htake : take 4 bytes with
    | error e =>
        rw [htake] at h
        cases h
    | ok p =>
        obtain ⟨first, tail⟩ := p
        rw [htake] at h
        cases h
        obtain ⟨hlen, rfl⟩ := take_local htake
        refine ⟨first, rfl, fun rest' => ?_⟩
        rw [readValue, take_append hlen]
        rfl
  · cases h

/-- Whether bytes are one field with a number, whatever comes after them. -/
def IsField (raw : Bytes) (number : Nat) : Prop :=
  ∃ value, ∀ context rest,
    Field.next context (raw ++ rest) = .ok (some (⟨number, value, raw, context⟩, rest))

/-- Whether bytes are fields none of which has a known number. -/
def Unknown (known : List Nat) (bytes : Bytes) : Prop :=
  ∃ raws : List Bytes, bytes = raws.flatten ∧ ∀ raw ∈ raws, ∃ number ∉ known, IsField raw number

theorem unknown_nil (known : List Nat) : Unknown known [] := ⟨[], rfl, by simp⟩

namespace Field

theorem next_of_read {first second rest : Bytes} {tag : Nat} {value : FieldValue}
    (hne : first ≠ []) (htag : Varint.read (first ++ (second ++ rest)) = .ok (tag, second ++ rest))
    (hvalue : readValue (tag % 8) (second ++ rest) = .ok (value, rest)) (context : Option String) :
    next context (first ++ second ++ rest) =
      .ok (some (⟨tag / 8, value, first ++ second, context⟩, rest)) := by
  have hraw : (first ++ second ++ rest).take ((first ++ second ++ rest).length - rest.length) =
      first ++ second := by
    rw [List.length_append, Nat.add_sub_cancel, List.take_left' rfl]
  rw [← List.append_assoc] at htag
  obtain ⟨b, tail, hcons⟩ := List.exists_cons_of_ne_nil (l := first ++ second ++ rest) (by simp [hne])
  rw [hcons] at htag hraw ⊢
  unfold next
  dsimp only
  rw [htag]
  dsimp only
  rw [hvalue]
  dsimp only
  rw [hraw]

/-- A field is read in the same way whatever follows it, in any kind of message. -/
theorem next_local {context : Option String} {bytes rest : Bytes} {f : Field}
    (h : next context bytes = .ok (some (f, rest))) :
    bytes = f.raw ++ rest ∧ IsField f.raw f.number := by
  unfold next at h
  split at h
  · cases h
  · rename_i b tail
    split at h
    · cases h
    · rename_i tag afterTag htag
      split at h
      · cases h
      · rename_i value rest' hvalue
        cases h
        obtain ⟨first, hne, heq, htag'⟩ := Varint.read_local htag
        obtain ⟨second, rfl, hvalue'⟩ := readValue_local hvalue
        rw [← List.append_assoc] at heq
        have hraw : (b :: tail).take ((b :: tail).length - rest.length) = first ++ second := by
          rw [heq, List.length_append, Nat.add_sub_cancel, List.take_left' rfl]
        dsimp only
        rw [hraw]
        exact ⟨heq, value, fun context' rest' =>
          next_of_read hne (htag' (second ++ rest')) (hvalue' rest') context'⟩

/-- A field that starts with its tag is read back. -/
theorem next_tag {number wireType : Nat} {value : FieldValue} {payload : Bytes}
    (htype : wireType < 8) (hnumber : number < 2 ^ 61)
    (h : ∀ rest, readValue wireType (payload ++ rest) = .ok (value, rest))
    (context : Option String) (rest : Bytes) :
    next context (tag number wireType ++ payload ++ rest) =
      .ok (some (⟨number, value, tag number wireType ++ payload, context⟩, rest)) := by
  have hsize : number * 8 + wireType < 2 ^ 64 := by omega
  have htag : tag number wireType = Varint.write (number * 8 + wireType) := by
    unfold tag
    rw [Nat.mod_eq_of_lt (show _ < UInt64.size from hsize)]
  have hne : Varint.write (number * 8 + wireType) ≠ [] := by
    refine List.ne_nil_of_length_pos ?_
    rw [Varint.length_write]
    exact Varint.size_pos _
  have hmod : (number * 8 + wireType) % 8 = wireType := by omega
  have hdiv : (number * 8 + wireType) / 8 = number := by omega
  have hvalue : readValue ((number * 8 + wireType) % 8) (payload ++ rest) = .ok (value, rest) := by
    rw [hmod]
    exact h rest
  have := next_of_read hne (Varint.read_write hsize (payload ++ rest)) hvalue context
  rwa [hdiv, ← htag] at this

end Field

end Wire
end TensorGraph
