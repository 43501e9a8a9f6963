import TensorGraph.Proofs.Tensor.Index

/-!
# Broadcast shapes and the offsets of their elements

Input:

* a shape that is broadcast to another one: the two are aligned on the right, and a dimension of
  size 1 is repeated (`Repeats`).

An index of the larger shape reads the element at an index of the smaller one (`sourceIndex`), so that
no offset is out of range.

Main results:

* `broadcastShapes_comm` and `broadcastShapes_assoc`: neither the order nor the grouping of shapes matters;
* `broadcastShapes_eq_some_iff`: the sizes broadcast one by one, from the last dimension on;
* `repeats_of_broadcastShapes`: the shape that two shapes broadcast to repeats both;
* `Repeats.getElem?_broadcastOffsets`: the offset for an index is that of the element that it reads;
* `takeAt_broadcastOffsets_self`: elements that are broadcast to their own shape stay the same.
-/

namespace TensorGraph

/-! ## Aligned shapes -/

/-- Whether each dimension of a shape is that of another one, or is repeated. -/
def Repeats (shape out : List Nat) : Prop :=
  ∃ lead rest, out = lead ++ rest ∧ List.Forall₂ (fun n m => n = 1 ∨ n = m) shape rest

theorem eq_of_broadcastSize {a b n : Nat} (h : broadcastSize a b = some n) :
    (a = 1 ∨ a = n) ∧ (b = 1 ∨ b = n) := by
  unfold broadcastSize at h
  split_ifs at h <;> simp_all

/-- Both shapes, from the last dimension on, are repeated by the first dimensions of the result. -/
theorem repeats_of_broadcastReversed {as bs out : List Nat}
    (h : broadcastReversed as bs = some out) :
    (∃ rest lead, out = rest ++ lead ∧ List.Forall₂ (fun n m => n = 1 ∨ n = m) as rest) ∧
      ∃ rest lead, out = rest ++ lead ∧ List.Forall₂ (fun n m => n = 1 ∨ n = m) bs rest := by
  have same : ∀ l : List Nat, List.Forall₂ (fun n m => n = 1 ∨ n = m) l l := fun l =>
    List.forall₂_same.2 fun _ _ => .inr rfl
  induction as generalizing bs out with
  | nil =>
      cases h
      exact ⟨⟨[], bs, rfl, .nil⟩, bs, [], by simp, same bs⟩
  | cons a as ih =>
      cases bs with
      | nil =>
          cases h
          exact ⟨⟨_, [], by simp, same _⟩, [], _, rfl, .nil⟩
      | cons b bs =>
          obtain ⟨n, hn, h⟩ := Option.bind_eq_some_iff.1 h
          obtain ⟨ns, hns, h⟩ := Option.bind_eq_some_iff.1 h
          cases h
          obtain ⟨ha, hb⟩ := eq_of_broadcastSize hn
          obtain ⟨⟨rest, lead, heq, has⟩, rest', lead', heq', hbs⟩ := ih hns
          exact ⟨⟨n :: rest, lead, by rw [heq]; rfl, .cons ha has⟩,
            n :: rest', lead', by rw [heq']; rfl, .cons hb hbs⟩

theorem broadcastSize_comm (a b : Nat) : broadcastSize a b = broadcastSize b a := by
  unfold broadcastSize
  split_ifs <;> simp_all

theorem broadcastReversed_comm (as bs : List Nat) :
    broadcastReversed as bs = broadcastReversed bs as := by
  induction as generalizing bs with
  | nil => cases bs <;> rfl
  | cons a as ih =>
      cases bs with
      | nil => rfl
      | cons b bs => rw [broadcastReversed, broadcastReversed, broadcastSize_comm, ih]

theorem broadcastShapes_comm (a b : List Nat) : broadcastShapes a b = broadcastShapes b a :=
  congrArg (Option.map List.reverse) (broadcastReversed_comm _ _)

theorem broadcastSize_assoc (a b c : Nat) :
    ((broadcastSize a b).bind fun n => broadcastSize n c) =
      (broadcastSize b c).bind fun n => broadcastSize a n := by
  unfold broadcastSize
  split_ifs <;> simp <;> split_ifs <;> simp_all

theorem broadcastReversed_nil_right (as : List Nat) : broadcastReversed as [] = some as := by
  cases as <;> rfl

theorem broadcastReversed_cons (a b : Nat) (as bs : List Nat) :
    broadcastReversed (a :: as) (b :: bs) =
      (broadcastSize a b).bind fun n => (broadcastReversed as bs).map (n :: ·) := by
  cases sizes : broadcastSize a b <;> cases rest : broadcastReversed as bs <;>
    simp [broadcastReversed, sizes, rest]

theorem broadcastReversed_assoc (as bs cs : List Nat) :
    ((broadcastReversed as bs).bind fun l => broadcastReversed l cs) =
      (broadcastReversed bs cs).bind fun l => broadcastReversed as l := by
  induction as generalizing bs cs with
  | nil => simp [broadcastReversed]
  | cons a as ih =>
      cases bs with
      | nil => simp [broadcastReversed]
      | cons b bs =>
          cases cs with
          | nil => simp [broadcastReversed_nil_right]
          | cons c cs =>
              -- Either way the first sizes are broadcast apart from the others.
              have left : ((broadcastReversed (a :: as) (b :: bs)).bind fun l =>
                    broadcastReversed l (c :: cs)) =
                  ((broadcastSize a b).bind fun n => broadcastSize n c).bind fun n =>
                    ((broadcastReversed as bs).bind fun l => broadcastReversed l cs).map (n :: ·) := by
                rw [broadcastReversed_cons]
                cases broadcastSize a b with
                | none => rfl
                | some n =>
                    cases broadcastReversed as bs with
                    | none => simp
                    | some l => exact broadcastReversed_cons n c l cs
              have right : ((broadcastReversed (b :: bs) (c :: cs)).bind fun l =>
                    broadcastReversed (a :: as) l) =
                  ((broadcastSize b c).bind fun n => broadcastSize a n).bind fun n =>
                    ((broadcastReversed bs cs).bind fun l => broadcastReversed as l).map (n :: ·) := by
                rw [broadcastReversed_cons]
                cases broadcastSize b c with
                | none => rfl
                | some n =>
                    cases broadcastReversed bs cs with
                    | none => simp
                    | some l => exact broadcastReversed_cons a n as l
              rw [left, right, broadcastSize_assoc, ih]

/-- Three shapes broadcast to the same shape however they are grouped. -/
theorem broadcastShapes_assoc (a b c : List Nat) :
    ((broadcastShapes a b).bind fun s => broadcastShapes s c) =
      (broadcastShapes b c).bind fun s => broadcastShapes a s := by
  have reversed := congrArg (Option.map List.reverse)
    (broadcastReversed_assoc a.reverse b.reverse c.reverse)
  rw [Option.map_bind, Option.map_bind] at reversed
  unfold broadcastShapes
  simpa only [Option.bind_map, Function.comp_def, List.reverse_reverse] using reversed

/-! ## Sizes one by one -/

/-- The size at a position from the right.  Dimensions that a shape does not have are of size 1. -/
def fromRight (shape : List Nat) (i : Nat) : Nat := shape.reverse.getD i 1

/-- Whether two sizes broadcast to a third one: they are equal, or one of them is 1 and the other one is
kept. -/
def SizesBroadcast (a b c : Nat) : Prop := a = b ∧ c = a ∨ a = 1 ∧ c = b ∨ b = 1 ∧ c = a

theorem broadcastSize_eq_some_iff {a b c : Nat} :
    broadcastSize a b = some c ↔ SizesBroadcast a b c := by
  unfold broadcastSize SizesBroadcast
  split_ifs <;> simp <;> omega

theorem broadcastReversed_eq_some_iff {as bs cs : List Nat} :
    broadcastReversed as bs = some cs ↔ cs.length = max as.length bs.length ∧
      ∀ i, SizesBroadcast (as.getD i 1) (bs.getD i 1) (cs.getD i 1) := by
  -- A dimension that one shape does not have is kept as the other one has it.
  have missing : ∀ {l cs : List Nat}, some l = some cs ↔
      cs.length = l.length ∧ ∀ i, cs.getD i 1 = l.getD i 1 := by
    intro l cs
    rw [Option.some.injEq]
    constructor
    · rintro rfl
      exact ⟨rfl, fun _ => rfl⟩
    · rintro ⟨length, same⟩
      refine List.ext_getElem length.symm fun i h h' => ?_
      simpa [List.getD_eq_getElem?_getD, h, h'] using (same i).symm
  induction as generalizing bs cs with
  | nil =>
      have one : ∀ m n : Nat, SizesBroadcast 1 m n ↔ n = m := by
        unfold SizesBroadcast
        omega
      simp [broadcastReversed, missing, one]
  | cons a as ih =>
      cases bs with
      | nil =>
          have one : ∀ m n : Nat, SizesBroadcast m 1 n ↔ n = m := by
            unfold SizesBroadcast
            omega
          simp [broadcastReversed, missing, one]
      | cons b bs =>
          rw [broadcastReversed_cons]
          cases cs with
          | nil => simp [Option.bind_eq_some_iff]
          | cons c cs =>
              have apart : ((broadcastSize a b).bind fun n =>
                    (broadcastReversed as bs).map (n :: ·)) = some (c :: cs) ↔
                  broadcastSize a b = some c ∧ broadcastReversed as bs = some cs := by
                cases broadcastSize a b <;> cases broadcastReversed as bs <;> simp
              rw [apart, broadcastSize_eq_some_iff]
              refine (and_congr_right' ih).trans ?_
              constructor
              · rintro ⟨first, length, rest⟩
                refine ⟨by simpa using length, fun i => ?_⟩
                cases i with
                | zero => exact first
                | succ i => exact rest i
              · rintro ⟨length, all⟩
                exact ⟨all 0, by simpa using length, fun i => all (i + 1)⟩

/-- Shapes broadcast when their sizes do, one by one from the last dimension on. -/
theorem broadcastShapes_eq_some_iff {a b c : List Nat} :
    broadcastShapes a b = some c ↔ c.length = max a.length b.length ∧
      ∀ i, SizesBroadcast (fromRight a i) (fromRight b i) (fromRight c i) := by
  have reversed : broadcastShapes a b = some c ↔
      broadcastReversed a.reverse b.reverse = some c.reverse := by
    unfold broadcastShapes
    rw [Option.map_eq_some_iff]
    constructor
    · rintro ⟨l, hl, rfl⟩
      rwa [List.reverse_reverse]
    · exact fun h => ⟨_, h, c.reverse_reverse⟩
  rw [reversed, broadcastReversed_eq_some_iff]
  simp only [List.length_reverse, fromRight]

/-- The shape that two shapes broadcast to repeats both. -/
theorem repeats_of_broadcastShapes {a b out : List Nat} (h : broadcastShapes a b = some out) :
    Repeats a out ∧ Repeats b out := by
  obtain ⟨out, found, rfl⟩ := Option.map_eq_some_iff.1 h
  obtain ⟨⟨rest, lead, heq, ha⟩, rest', lead', heq', hb⟩ := repeats_of_broadcastReversed found
  refine ⟨⟨lead.reverse, rest.reverse, by rw [heq, List.reverse_append], ?_⟩,
    lead'.reverse, rest'.reverse, by rw [heq', List.reverse_append], ?_⟩
  · simpa only [List.reverse_reverse] using List.rel_reverse ha
  · simpa only [List.reverse_reverse] using List.rel_reverse hb

/-! ## Offsets -/

/-- The strides of a shape whose dimensions of size 1 are repeated. -/
def repeatedStrides (shape : List Nat) : List Int :=
  (shape.zip (strides shape)).map fun p => if p.1 = 1 then 0 else (p.2 : Int)

/-- An index of a shape, with the first position in dimensions of size 1. -/
def unitIndex (shape index : List Nat) : List Nat :=
  List.zipWith (fun n i => if n = 1 then 0 else i) shape index

/-- The index of the element that an index of a larger shape reads: dimensions that the smaller shape
does not have are left out, and those of size 1 have their first position. -/
def sourceIndex (shape index : List Nat) : List Nat :=
  unitIndex shape (index.drop (index.length - shape.length))

/-- An index of a larger shape reads the element at an index of the smaller one. -/
theorem unitIndex_of_repeats {shape rest index : List Nat}
    (h : List.Forall₂ (fun n m => n = 1 ∨ n = m) shape rest) (hindex : index ∈ indexes rest) :
    unitIndex shape index ∈ indexes shape ∧ offsetOf index (repeatedStrides shape) =
      offsetOf (unitIndex shape index) ((strides shape).map Nat.cast) := by
  induction h generalizing index with
  | nil => exact ⟨by simp [unitIndex, indexes], by cases index <;> rfl⟩
  | @cons n m shape rest hn _ ih =>
      obtain ⟨i, index, hi, hrest, rfl⟩ : ∃ i index', i < m ∧ index' ∈ indexes rest ∧
          i :: index' = index := by
        simpa [indexes] using hindex
      obtain ⟨mem, same⟩ := ih hrest
      unfold unitIndex at mem same ⊢
      by_cases one : n = 1
      · subst one
        exact ⟨by simpa [indexes] using mem, by
          simpa [repeatedStrides, strides, offsetOf] using same⟩
      · obtain rfl := hn.resolve_left one
        exact ⟨by simpa [indexes, one] using ⟨hi, mem⟩, by
          simpa [repeatedStrides, strides, offsetOf, one] using same⟩

/-- In its own shape each index reads itself. -/
theorem offsetOf_repeatedStrides {shape index : List Nat} (h : index ∈ indexes shape) :
    offsetOf index (repeatedStrides shape) = offsetOf index ((strides shape).map Nat.cast) := by
  induction shape generalizing index with
  | nil => cases index <;> rfl
  | cons n shape ih =>
      obtain ⟨i, index, hi, hrest, rfl⟩ : ∃ i index', i < n ∧ index' ∈ indexes shape ∧
          i :: index' = index := by
        simpa [indexes] using h
      have same := ih hrest
      by_cases one : n = 1
      · obtain rfl : i = 0 := by omega
        simpa [repeatedStrides, strides, offsetOf, one] using same
      · simpa [repeatedStrides, strides, offsetOf, one] using same

theorem broadcastStrides_eq (shape out : List Nat) :
    broadcastStrides shape out =
      List.replicate (out.length - shape.length) 0 ++ repeatedStrides shape :=
  rfl

/-- Dimensions that the smaller shape does not have do not count. -/
theorem offsetOf_replicate_append {index : List Nat} {k : Nat} (steps : List Int)
    (h : k ≤ index.length) :
    offsetOf index (List.replicate k 0 ++ steps) = offsetOf (index.drop k) steps := by
  induction k generalizing index with
  | zero => rfl
  | succ k ih =>
      cases index with
      | nil => simp at h
      | cons i index =>
          simp only [List.replicate_succ, List.cons_append, offsetOf, Int.mul_zero, Int.zero_add,
            List.drop_succ_cons]
          exact ih (by simpa using h)

/-- Dimensions of size 1 and those that the smaller shape does not have are read at one place. -/
theorem Repeats.sourceIndex {shape out index : List Nat} (h : Repeats shape out)
    (hindex : index ∈ indexes out) :
    sourceIndex shape index ∈ indexes shape ∧ offsetOf index (broadcastStrides shape out) =
      offsetOf (TensorGraph.sourceIndex shape index) ((strides shape).map Nat.cast) := by
  obtain ⟨lead, rest, rfl, aligned⟩ := h
  have missing : (lead ++ rest).length - shape.length = lead.length := by
    rw [List.length_append, aligned.length_eq, Nat.add_sub_cancel]
  have length : index.length = (lead ++ rest).length := length_of_mem_indexes hindex
  have inner : index.drop lead.length ∈ indexes rest := by
    rw [mem_indexes]
    simpa using List.forall₂_drop lead.length (mem_indexes.1 hindex)
  obtain ⟨mem, same⟩ := unitIndex_of_repeats aligned inner
  rw [TensorGraph.sourceIndex, length, missing, broadcastStrides_eq, missing,
    offsetOf_replicate_append _ (by rw [length, List.length_append]; omega)]
  exact ⟨mem, same⟩

/-- Each offset of a broadcast is that of an element. -/
theorem lt_of_mem_broadcastOffsets {shape out : List Nat} (h : Repeats shape out) {k : Nat}
    (hk : k ∈ broadcastOffsets shape out) : k < elementCount shape := by
  obtain ⟨index, hindex, rfl⟩ := List.mem_map.1 hk
  obtain ⟨mem, same⟩ := h.sourceIndex hindex
  rw [same, Int.zero_add]
  exact toNat_offsetOf_lt mem

/-- The offset for an index stands at the place of the index in row-major order, and is that of the
element that the index reads. -/
theorem Repeats.getElem?_broadcastOffsets {shape out index : List Nat} (h : Repeats shape out)
    (hindex : index ∈ indexes out) :
    (broadcastOffsets shape out)[(offsetOf index ((strides out).map Nat.cast)).toNat]? =
      some (offsetOf (TensorGraph.sourceIndex shape index) ((strides shape).map Nat.cast)).toNat := by
  rw [broadcastOffsets, stridedOffsets, List.getElem?_map, getElem?_indexes hindex, Option.map_some,
    (h.sourceIndex hindex).2, Int.zero_add]

/-- A shape that is broadcast to itself is read in row-major order. -/
theorem broadcastOffsets_self (shape : List Nat) :
    broadcastOffsets shape shape = stridedOffsets shape ((strides shape).map Nat.cast) 0 := by
  refine List.map_congr_left fun index hindex => ?_
  rw [broadcastStrides_eq, Nat.sub_self, List.replicate_zero, List.nil_append,
    offsetOf_repeatedStrides hindex]

/-- Elements that are broadcast to their own shape stay the same. -/
theorem takeAt_broadcastOffsets_self {α : Type} [Inhabited α] {xs : Array α} {shape : List Nat}
    (h : xs.size = elementCount shape) : takeAt xs (broadcastOffsets shape shape) = xs := by
  rw [broadcastOffsets_self, takeAt_rowMajor h]

end TensorGraph
