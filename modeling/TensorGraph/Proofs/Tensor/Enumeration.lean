import Mathlib
import TensorGraph.Proofs.Tensor.Index

/-!
# Counting through the indexes of a shape

Input:

* a shape of any rank, in which dimensions may be empty;
* 64-bit strides and a first offset, for elements that are laid out with them.

Algorithm:

* `countOn` advances an index like a counter: the last digit that has not reached its end goes on by
  one, and the digits behind it start again at zero;
* `forEachIndex` visits the index of zeros, unless a dimension is empty, and counts on until every digit
  has reached its end;
* `layOut` visits each index and adds its offset in arithmetic that wraps around, and `ownStrides`
  multiplies the sizes from the last one on.

A counter that goes on moves to the next place in row-major order, and the one that cannot go on stands at
the last place (`Counter.rowMajor_next`, `Counter.rowMajor_last`), so the visits are those of `indexes`.

Main results:

* `forEachIndex_eq`: what is visited, in which order, and that this ends;
* `pairwise_indexes`: row-major order is the order of the digits, the first of which counts most;
* `indexes_enumerated`: this with the offsets that are laid out.
-/

namespace TensorGraph

/-! ## A counter -/

/-- Advance the digits in front of a position, the last of them first.  A digit that reaches the size of its
dimension starts again at zero, and then the one in front of it goes on. -/
def countOn (shape : List Nat) : (dim : Nat) → (index : List Nat) → Option (List Nat)
  | 0, _ => none
  | dim + 1, index =>
    let index := index.set dim (index.getD dim 0 + 1)
    if index.getD dim 0 < shape.getD dim 0 then some index
    else countOn shape dim (index.set dim 0)

/-- One digit of the counter: it goes on, or it starts again and the digits in front of it go on. -/
theorem countOn_digit {front before : List Nat} (length : before.length = front.length) (n i : Nat)
    (back rest : List Nat) :
    countOn (front ++ n :: back) (front.length + 1) (before ++ i :: rest) =
      if i + 1 < n then some (before ++ (i + 1) :: rest)
      else countOn (front ++ n :: back) front.length (before ++ 0 :: rest) := by
  have size : (front ++ n :: back).getD before.length 0 = n := by simp [length]
  rw [countOn, ← length, size]
  simp

/-- What counting on does to the digits in front of a position: they all are at their end, or they move to
the next place.  The digits from the position on stay as they are. -/
theorem countOn_cases {front before : List Nat} (h : before ∈ indexes front) (back rest : List Nat) :
    (countOn (front ++ back) front.length (before ++ rest) = none ∧
        rowMajor front before + 1 = elementCount front) ∨
      ∃ after ∈ indexes front, rowMajor front after = rowMajor front before + 1 ∧
        countOn (front ++ back) front.length (before ++ rest) = some (after ++ rest) := by
  -- the loop goes from the last of these digits to the first
  induction front using List.reverseRecOn generalizing before back rest with
  | nil =>
      obtain rfl : before = [] := by simpa [indexes] using h
      exact Or.inl ⟨rfl, rfl⟩
  | append_singleton front n ih =>
      obtain ⟨before, hbefore, last, hlast, rfl⟩ := mem_indexes_append.1 h
      obtain ⟨i, hi, rfl⟩ : ∃ i < n, last = [i] := by simpa [mem_indexes_cons, indexes] using hlast
      have length : before.length = front.length := length_of_mem_indexes hbefore
      have place : ∀ {digits : List Nat} (j : Nat), digits.length = front.length →
          rowMajor (front ++ [n]) (digits ++ [j]) = rowMajor front digits * n + j := by
        intro digits j hdigits
        rw [rowMajor_append hdigits, rowMajor_cons]
        simp [elementCount_cons]
      have count : elementCount (front ++ [n]) = elementCount front * n := by
        rw [elementCount_append, elementCount_cons, elementCount_nil, Nat.mul_one]
      have step := countOn_digit length n i back rest
      rw [List.length_append, List.length_singleton, List.append_assoc, List.append_assoc,
        List.singleton_append, List.singleton_append, step, place i length, count]
      by_cases room : i + 1 < n
      · rw [if_pos room]
        refine Or.inr ⟨before ++ [i + 1], ?_, ?_, by simp⟩
        · exact mem_indexes_append.2 ⟨before, hbefore, [i + 1], by simp [indexes, room], rfl⟩
        · rw [place _ length, Nat.add_assoc]
      · obtain rfl : i + 1 = n := by omega
        rw [if_neg room]
        -- the digits in front go on, and this one is zero
        rcases ih hbefore ((i + 1) :: back) (0 :: rest) with ⟨ends, whole⟩ | ⟨after, mem, next, goes⟩
        · refine Or.inl ⟨ends, ?_⟩
          rw [← whole, Nat.add_mul]
          omega
        · refine Or.inr ⟨after ++ [0], ?_, ?_, by rw [goes]; simp⟩
          · exact mem_indexes_append.2 ⟨after, mem, [0], by simp [indexes], rfl⟩
          · rw [place 0 (length_of_mem_indexes mem), next, Nat.add_mul]
            omega

/-- An index of a shape. -/
structure Counter (shape : List Nat) where
  index : List Nat
  inside : index ∈ indexes shape

namespace Counter

variable {shape : List Nat}

/-- The index of zeros, if no dimension is empty. -/
def start (h : 0 ∉ shape) : Counter shape :=
  ⟨List.replicate shape.length 0, by
    rw [mem_indexes, List.forall₂_iff_get]
    refine ⟨List.length_replicate, fun i h₁ h₂ => ?_⟩
    have : shape[i] ≠ 0 := fun zero => h (zero ▸ List.getElem_mem h₂)
    simpa using Nat.pos_of_ne_zero this⟩

/-- Counting on gives the index at the next place. -/
theorem countOn_eq_some (c : Counter shape) {index : List Nat}
    (h : countOn shape shape.length c.index = some index) :
    index ∈ indexes shape ∧ rowMajor shape index = rowMajor shape c.index + 1 := by
  rcases countOn_cases c.inside [] [] with ⟨ends, -⟩ | ⟨after, mem, place, goes⟩
  · simp [h] at ends
  · obtain rfl : index = after := by simpa [h] using goes
    exact ⟨mem, place⟩

/-- Counting on ends at the last place. -/
theorem countOn_eq_none (c : Counter shape) (h : countOn shape shape.length c.index = none) :
    rowMajor shape c.index + 1 = elementCount shape := by
  rcases countOn_cases c.inside [] [] with ⟨-, last⟩ | ⟨after, -, -, goes⟩
  · exact last
  · simp [h] at goes

/-- The next index, unless all digits are at their end. -/
def next? (c : Counter shape) : Option (Counter shape) :=
  match h : countOn shape shape.length c.index with
  | none => none
  | some index => some ⟨index, (c.countOn_eq_some h).1⟩

theorem rowMajor_next {c d : Counter shape} (h : c.next? = some d) :
    rowMajor shape d.index = rowMajor shape c.index + 1 := by
  unfold next? at h
  split at h
  · cases h
  · rename_i index found
    cases h
    exact (c.countOn_eq_some found).2

theorem rowMajor_last {c : Counter shape} (h : c.next? = none) :
    rowMajor shape c.index + 1 = elementCount shape := by
  unfold next? at h
  split at h
  · rename_i found
    exact c.countOn_eq_none found
  · cases h

theorem rowMajor_replicate_zero (shape : List Nat) (k : Nat) :
    rowMajor shape (List.replicate k 0) = 0 := by
  induction shape generalizing k with
  | nil => exact rowMajor_nil_left _
  | cons n shape ih =>
      cases k with
      | zero => exact rowMajor_nil_right _
      | succ k => rw [List.replicate_succ, rowMajor_cons, ih, Nat.zero_mul]

@[simp] theorem rowMajor_start (h : 0 ∉ shape) : rowMajor shape (start h).index = 0 :=
  rowMajor_replicate_zero shape shape.length

/-- The indexes from a place on begin with the one at that place. -/
theorem drop_rowMajor (c : Counter shape) :
    (indexes shape).drop (rowMajor shape c.index) =
      c.index :: (indexes shape).drop (rowMajor shape c.index + 1) := by
  obtain ⟨bound, found⟩ := List.getElem?_eq_some_iff.1 (getElem?_rowMajor c.inside)
  rw [List.drop_eq_getElem_cons bound, found]

end Counter

/-! ## Visiting all indexes -/

/-- Visit an index and all that follow it. -/
def visitFrom {σ : Type} {shape : List Nat} (visit : σ → List Nat → σ) (s : σ) (c : Counter shape) : σ :=
  let s := visit s c.index
  match _next : c.next? with
  | none => s
  | some d => visitFrom visit s d
termination_by elementCount shape - rowMajor shape c.index
decreasing_by
  have place := Counter.rowMajor_next _next
  have bound := rowMajor_lt d.inside
  omega

/-- Visit each index of a shape.  There is none if a dimension is empty. -/
def forEachIndex {σ : Type} (shape : List Nat) (visit : σ → List Nat → σ) (s : σ) : σ :=
  if h : 0 ∈ shape then s else visitFrom visit s (.start h)

/-- From an index on, all indexes are visited that are listed from its place on. -/
theorem visitFrom_eq {σ : Type} {shape : List Nat} (visit : σ → List Nat → σ) (s : σ)
    (c : Counter shape) :
    visitFrom visit s c =
      ((indexes shape).drop (rowMajor shape c.index)).foldl visit s := by
  fun_induction visitFrom visit s c with
  | case1 s c s' last =>
      have end_place := Counter.rowMajor_last last
      rw [c.drop_rowMajor, end_place, ← length_indexes, List.drop_length]
      rfl
  | case2 s c s' d next ih =>
      rw [ih, Counter.rowMajor_next next, c.drop_rowMajor]
      rfl

/-- Each index is visited once, in the order in which the indexes are listed, and then the visits end. -/
theorem forEachIndex_eq {σ : Type} (shape : List Nat) (visit : σ → List Nat → σ) (s : σ) :
    forEachIndex shape visit s = (indexes shape).foldl visit s := by
  unfold forEachIndex
  split
  · rename_i empty
    have none : (indexes shape).length = 0 := by
      rw [length_indexes, elementCount_eq_prod, List.prod_eq_zero empty]
    rw [List.eq_nil_of_length_eq_zero none]
    rfl
  · rw [visitFrom_eq, Counter.rowMajor_start, List.drop_zero]

/-- No index is listed twice. -/
theorem nodup_indexes (shape : List Nat) : (indexes shape).Nodup := by
  have places : (indexes shape).map (rowMajor shape) = List.range (elementCount shape) :=
    map_offsetOf_indexes shape
  exact List.Nodup.of_map (rowMajor shape) (places ▸ List.nodup_range)

/-- Indexes are listed by their digits, of which the first that is not the same counts. -/
theorem pairwise_indexes (shape : List Nat) : (indexes shape).Pairwise (List.Lex (· < ·)) := by
  induction shape with
  | nil => exact List.pairwise_singleton _ _
  | cons n shape ih =>
      rw [indexes, List.pairwise_flatMap]
      constructor
      · intro i hi
        rw [List.pairwise_map]
        exact ih.imp fun h => .cons h
      · refine List.pairwise_lt_range.imp fun {i j} hij => ?_
        intro a ha b hb
        obtain ⟨a, -, rfl⟩ := List.mem_map.1 ha
        obtain ⟨b, -, rfl⟩ := List.mem_map.1 hb
        exact .rel hij

/-! ## Offsets -/

/-- The distance of an index from the first element, in 64-bit arithmetic. -/
def wrappedOffset (index : List Nat) (steps : List Int64) : Int64 :=
  (index.zip steps).foldl (fun sum p => sum + Int64.ofNat p.1 * p.2) 0

/-- The offsets of all elements of a shape that are laid out from `base` on, in 64-bit arithmetic. -/
def layOut (shape : List Nat) (steps : List Int64) (base : Int64) : Array UInt64 :=
  forEachIndex shape
    (fun offsets index => offsets.push (base + wrappedOffset index steps).toUInt64) #[]

/-- The offset of an index that is laid out, as an integer. -/
def exactOffset (steps : List Int64) (base : Int64) (index : List Nat) : Int :=
  base.toInt + offsetOf index (steps.map Int64.toInt)

theorem exactOffset_eq_sum (steps : List Int64) (base : Int64) (index : List Nat) :
    exactOffset steps base index =
      base.toInt + ((index.zip steps).map fun p => (p.1 : Int) * p.2.toInt).sum := by
  rw [exactOffset, offsetOf_eq_sum, List.zip_map_right, List.map_map]
  rfl

/-- Sums that wrap around are those of the integers, wrapped around at the end. -/
theorem wrappedOffset_ofInt (index : List Nat) (steps : List Int) :
    wrappedOffset index (steps.map Int64.ofInt) = Int64.ofInt (offsetOf index steps) := by
  have sums : ∀ sum, (index.zip (steps.map Int64.ofInt)).foldl
      (fun sum p => sum + Int64.ofNat p.1 * p.2) sum = sum + Int64.ofInt (offsetOf index steps) := by
    induction index generalizing steps with
    | nil => intro sum; simp [offsetOf]
    | cons i index ih =>
        cases steps with
        | nil => intro sum; simp [offsetOf]
        | cons step steps =>
            intro sum
            rw [List.map_cons, List.zip_cons_cons, List.foldl_cons, ih, offsetOf, Int64.ofInt_add,
              Int64.ofInt_mul, Int64.ofInt_eq_ofNat, Int64.add_assoc]
  rw [wrappedOffset, sums, Int64.zero_add]

theorem toNat_toUInt64_ofInt (v : Int) :
    ((Int64.ofInt v).toUInt64.toNat : Int) = v % UInt64.size := by
  have bits : (Int64.ofInt v).toUInt64.toNat = (BitVec.ofInt 64 v).toNat := rfl
  rw [bits, BitVec.toNat_ofInt, Int.toNat_of_nonneg (Int.emod_nonneg v (by decide))]

theorem toUInt64_ofInt_natCast (k : Nat) : (Int64.ofInt (k : Int)).toUInt64 = UInt64.ofNat k := by
  rw [← UInt64.toNat_inj, UInt64.toNat_ofNat']
  exact Int.ofNat.inj (toNat_toUInt64_ofInt k)

/-- What is laid out, for integers that stand for the base and the strides. -/
theorem toList_layOut_ofInt (shape : List Nat) (steps : List Int) (base : Int) :
    (layOut shape (steps.map Int64.ofInt) (Int64.ofInt base)).toList =
      (indexes shape).map fun index => (Int64.ofInt (base + offsetOf index steps)).toUInt64 := by
  rw [layOut, forEachIndex_eq]
  simp [wrappedOffset_ofInt, Int64.ofInt_add]

/-- What is laid out are the sums of the base and the products, up to multiples of the number of 64-bit
words. -/
theorem layOut_eq (shape : List Nat) (steps : List Int64) (base : Int64) :
    (layOut shape steps base).toList.map (fun o => (o.toNat : Int)) =
      (indexes shape).map fun index => exactOffset steps base index % UInt64.size := by
  have whole := toList_layOut_ofInt shape (steps.map Int64.toInt) base.toInt
  have same : (steps.map Int64.toInt).map Int64.ofInt = steps := by
    simp [Function.comp_def]
  rw [same, Int64.ofInt_toInt] at whole
  rw [whole, List.map_map]
  exact List.map_congr_left fun index _ => toNat_toUInt64_ofInt _

/-- Sums that are 64-bit words are laid out as they are. -/
theorem layOut_exact {shape : List Nat} {steps : List Int64} {base : Int64}
    (h : ∀ index ∈ indexes shape,
      0 ≤ exactOffset steps base index ∧ exactOffset steps base index < UInt64.size) :
    (layOut shape steps base).toList.map UInt64.toNat =
      stridedOffsets shape (steps.map Int64.toInt) base.toInt := by
  have whole := congrArg (List.map Int.toNat) (layOut_eq shape steps base)
  rw [List.map_map, List.map_map] at whole
  rw [stridedOffsets]
  refine Eq.trans ?_ (whole.trans ?_)
  · rfl
  · refine List.map_congr_left fun index hindex => ?_
    obtain ⟨low, high⟩ := h index hindex
    rw [Function.comp_apply, Int.emod_eq_of_lt low high]
    rfl

/-! ## Strides -/

/-- Set the strides in front of a position, the last of them first. -/
def fillStrides (shape : List Nat) : (dim : Nat) → (steps : List UInt64) → List UInt64
  | 0, steps => steps
  | dim + 1, steps =>
    fillStrides shape dim
      (steps.set dim (steps.getD (dim + 1) 1 * UInt64.ofNat (shape.getD (dim + 1) 0)))

/-- The row-major strides of a shape, in 64-bit arithmetic. -/
def ownStrides (shape : List Nat) : List UInt64 :=
  fillStrides shape (shape.length - 1) (List.replicate shape.length 1)

/-- When the strides of the last dimensions are set, the others are set in front of them. -/
theorem fillStrides_eq (front : List Nat) (m : Nat) (back : List Nat) :
    fillStrides (front ++ m :: back) front.length
        (List.replicate front.length 1 ++ (strides (m :: back)).map UInt64.ofNat) =
      (strides (front ++ m :: back)).map UInt64.ofNat := by
  induction front using List.reverseRecOn generalizing m back with
  | nil => rfl
  | append_singleton front n ih =>
      have size : (front ++ n :: m :: back).getD (front.length + 1) 0 = m := by simp
      have product : UInt64.ofNat (elementCount back) * UInt64.ofNat m =
          UInt64.ofNat (elementCount (m :: back)) := by
        rw [← UInt64.ofNat_mul, elementCount_cons, Nat.mul_comm]
      rw [List.length_append, List.length_singleton, List.append_assoc, List.singleton_append,
        fillStrides, size, ← ih n (m :: back)]
      -- only the stride in front of those that are set is set
      congr 1
      simp [List.replicate_succ', strides, product]

theorem ownStrides_eq (shape : List Nat) : ownStrides shape = (strides shape).map UInt64.ofNat := by
  induction shape using List.reverseRecOn with
  | nil => rfl
  | append_singleton front n =>
      have whole := fillStrides_eq front n []
      have one : (strides [n]).map UInt64.ofNat = [1] := rfl
      rw [one, ← List.replicate_succ'] at whole
      rw [ownStrides, List.length_append, List.length_singleton, Nat.add_sub_cancel, whole]

/-- With the strides of its shape each element is laid out at its place. -/
theorem layOut_ownStrides (shape : List Nat) :
    (layOut shape ((ownStrides shape).map UInt64.toInt64) 0).toList =
      (List.range (elementCount shape)).map UInt64.ofNat := by
  have steps : (ownStrides shape).map UInt64.toInt64 =
      ((strides shape).map Nat.cast).map Int64.ofInt := by
    rw [ownStrides_eq, List.map_map, List.map_map]
    exact List.map_congr_left fun k _ => Int64.ofInt_eq_ofNat.symm
  have places : (indexes shape).map (rowMajor shape) = List.range (elementCount shape) :=
    map_offsetOf_indexes shape
  have zero : Int64.ofInt 0 = 0 := rfl
  have whole := toList_layOut_ofInt shape ((strides shape).map Nat.cast) 0
  rw [zero] at whole
  rw [steps, whole, ← places, List.map_map]
  refine List.map_congr_left fun index _ => ?_
  rw [Int.zero_add, ← natCast_rowMajor, toUInt64_ofInt_natCast, Function.comp_apply]

/-! ## The whole enumeration -/

/-- The indexes of a shape are enumerated completely.  What visits them visits each index once, in row-major
order, and then ends, whatever it does with them; the index of no digits is visited for rank 0, and none if
a dimension is empty.  What is laid out from a base on with some strides is listed for each of them: the
base and the sum of the products of digits and strides, as a 64-bit word, which is this sum if it is one.
With the strides of the shape the places are listed in order. -/
theorem indexes_enumerated (shape : List Nat) :
    (∀ {σ : Type} (visit : σ → List Nat → σ) (s : σ),
        forEachIndex shape visit s = (indexes shape).foldl visit s) ∧
      ((∀ index, index ∈ indexes shape ↔ List.Forall₂ (· < ·) index shape) ∧
        (indexes shape).Nodup ∧ (indexes shape).Pairwise (List.Lex (· < ·))) ∧
      (∀ (steps : List Int64) (base : Int64) (index : List Nat), exactOffset steps base index =
        base.toInt + ((index.zip steps).map fun p => (p.1 : Int) * p.2.toInt).sum) ∧
      (∀ (steps : List Int64) (base : Int64),
        (layOut shape steps base).toList.map (fun o => (o.toNat : Int)) =
          (indexes shape).map fun index => exactOffset steps base index % UInt64.size) ∧
      (∀ (steps : List Int64) (base : Int64),
        (∀ index ∈ indexes shape,
          0 ≤ exactOffset steps base index ∧ exactOffset steps base index < UInt64.size) →
        (layOut shape steps base).toList.map UInt64.toNat =
            stridedOffsets shape (steps.map Int64.toInt) base.toInt ∧
          (stridedOffsets shape (steps.map Int64.toInt) base.toInt).map Nat.cast =
            (indexes shape).map (exactOffset steps base)) ∧
      (layOut shape ((ownStrides shape).map UInt64.toInt64) 0).toList =
        (List.range shape.prod).map UInt64.ofNat ∧
      stridedOffsets shape ((strides shape).map Nat.cast) 0 = List.range shape.prod := by
  refine ⟨fun visit s => forEachIndex_eq shape visit s,
    ⟨fun index => mem_indexes, nodup_indexes shape, pairwise_indexes shape⟩,
    exactOffset_eq_sum, layOut_eq shape, fun steps base h => ⟨layOut_exact h, ?_⟩, ?_, ?_⟩
  · rw [stridedOffsets, List.map_map]
    exact List.map_congr_left fun index hindex => Int.toNat_of_nonneg (h index hindex).1
  · rw [layOut_ownStrides, elementCount_eq_prod]
  · rw [stridedOffsets_strides, elementCount_eq_prod]

/-- Two rows are read in the opposite order, with a negative stride.  A shape of rank 0 has one index, and a
shape with an empty dimension has none. -/
theorem indexes_enumerated_reversedRows :
    (∀ index ∈ indexes [2, 3],
        0 ≤ exactOffset [-3, 1] 3 index ∧ exactOffset [-3, 1] 3 index < UInt64.size) ∧
      (layOut [2, 3] [-3, 1] 3).toList.map UInt64.toNat = [3, 4, 5, 0, 1, 2] ∧
      forEachIndex [] (fun visited index => visited ++ [index]) [] = [[]] ∧
      forEachIndex [2, 0] (fun visited index => visited ++ [index]) [] = [] := by
  obtain ⟨-, -, -, -, exactly, -, -⟩ := indexes_enumerated [2, 3]
  have inside : ∀ index ∈ indexes [2, 3],
      0 ≤ exactOffset [-3, 1] 3 index ∧ exactOffset [-3, 1] 3 index < UInt64.size := by decide
  refine ⟨inside, (exactly [-3, 1] 3 inside).1.trans (by decide), ?_, ?_⟩
  · exact ((indexes_enumerated []).1 _ _).trans rfl
  · exact ((indexes_enumerated [2, 0]).1 _ _).trans rfl

end TensorGraph
