import Mathlib.Data.List.Nodup
import Mathlib.Data.List.Perm.Subperm
import TensorGraph.Operator.Layout
import TensorGraph.Proofs.Tensor.Counted

/-!
# Axes

Input:

* axes of an operator, which may count dimensions from the end, and the dimensions of a tensor.

Axes that an operator accepts stand for distinct dimensions (`resolveAxes_eq_ok_iff`), and the order in
which they are listed matters neither when dimensions are removed nor when they are inserted.

Main results:

* `droppedShape_insertDims`: inserted dimensions can be removed again;
* `insertDims_droppedShape`: removed dimensions of size 1 can be inserted again.
-/

namespace TensorGraph

/-! ## Resolved axes -/

variable {rank i : Nat} {axes : List Int} {found : List Nat}

theorem resolveAxis?_eq_some_iff {axis : Int} :
    resolveAxis? rank axis = some i ↔
      i < rank ∧ (i : Int) = if axis < 0 then axis + rank else axis := by
  unfold resolveAxis?
  dsimp only
  generalize (if axis < 0 then axis + (rank : Int) else axis) = resolved
  split
  · simp only [reduceCtorEq, false_iff]
    omega
  · rw [Option.some.injEq]
    omega

/-- An axis that counts from the first dimension. -/
theorem resolveAxis?_natCast (h : i < rank) : resolveAxis? rank i = some i :=
  resolveAxis?_eq_some_iff.2 ⟨h, by rw [if_neg (by omega)]⟩

/-- Dimensions count from the first one. -/
theorem mapM_resolveAxis?_natCast {dims : List Nat} (h : ∀ i ∈ dims, i < rank) :
    (dims.map (Nat.cast : Nat → Int)).mapM (resolveAxis? rank) = some dims := by
  induction dims with
  | nil => rfl
  | cons i rest ih =>
      rw [List.map_cons, List.mapM_cons, resolveAxis?_natCast (h i List.mem_cons_self),
        ih fun j hj => h j (List.mem_cons_of_mem _ hj)]
      rfl

theorem lt_of_mapM_resolveAxis? (h : axes.mapM (resolveAxis? rank) = some found) :
    ∀ i ∈ found, i < rank := by
  induction axes generalizing found with
  | nil =>
      cases h
      simp
  | cons axis rest ih =>
      rw [List.mapM_cons] at h
      obtain ⟨i, hi, h⟩ := Option.bind_eq_some_iff.1 h
      obtain ⟨is, his, h⟩ := Option.bind_eq_some_iff.1 h
      cases h
      exact List.forall_mem_cons.2 ⟨(resolveAxis?_eq_some_iff.1 hi).1, ih his⟩

/-- Some axes may have been found before, from which all others differ. -/
theorem foldlM_resolveAxis_eq_ok_iff {first out : List Nat} (hfirst : first.Nodup) :
    axes.foldlM (fun found axis => do
        let axis ← resolveAxis rank axis
        if found.contains axis then .error (.invalidValue "axes contain duplicates")
        else return found ++ [axis]) first = .ok out ↔
      ∃ rest, axes.mapM (resolveAxis? rank) = some rest ∧ out = first ++ rest ∧ out.Nodup := by
  induction axes generalizing first with
  | nil =>
      simp only [List.foldlM_nil, List.mapM_nil, pure, Except.pure, Except.ok.injEq,
        Option.some.injEq, exists_eq_left', List.append_nil]
      exact ⟨fun h => ⟨h.symm, h ▸ hfirst⟩, fun h => h.1.symm⟩
  | cons axis rest ih =>
      rw [List.foldlM_cons, List.mapM_cons]
      cases hi : resolveAxis? rank axis with
      | none => simp [resolveAxis, hi, orFault, bind, Except.bind]
      | some i =>
          rw [show resolveAxis rank axis = .ok i by rw [resolveAxis, hi]; rfl]
          by_cases hmem : i ∈ first
          · simp only [bind, Except.bind, List.contains_iff_mem, if_pos hmem, reduceCtorEq,
              false_iff, not_exists, not_and, Option.bind_some]
            rintro is his rfl hnodup
            obtain ⟨js, -, hjs⟩ := Option.bind_eq_some_iff.1 his
            cases hjs
            exact List.disjoint_of_nodup_append hnodup hmem List.mem_cons_self
          · have nodup : (first ++ [i]).Nodup := by
              refine List.nodup_append.2 ⟨hfirst, List.nodup_singleton i, ?_⟩
              rintro a ha b hb rfl
              exact hmem (List.mem_singleton.1 hb ▸ ha)
            have tail := ih nodup
            simp only [bind, Except.bind, List.contains_iff_mem, if_neg hmem, Option.bind_some]
              at tail ⊢
            refine tail.trans ?_
            cases rest.mapM (resolveAxis? rank) with
            | none => simp
            | some is => simp [pure]

/-- The axes that an operator accepts are those that are in range and distinct. -/
theorem resolveAxes_eq_ok_iff :
    resolveAxes rank axes = .ok found ↔
      axes.mapM (resolveAxis? rank) = some found ∧ found.Nodup := by
  unfold resolveAxes
  rw [foldlM_resolveAxis_eq_ok_iff List.nodup_nil]
  simp

/-- As many distinct dimensions as there are stand for all dimensions. -/
theorem perm_range_of_nodup {order : List Nat} (nodup : order.Nodup) (lt : ∀ i ∈ order, i < rank)
    (length : order.length = rank) : order.Perm (List.range rank) :=
  ((List.subperm_of_subset nodup fun i hi => List.mem_range.2 (lt i hi)).perm_of_length_le
    (by rw [List.length_range, length]))

/-- The dimensions that distinct axes leave. -/
theorem countP_range_not_mem (nodup : found.Nodup) (lt : ∀ i ∈ found, i < rank) :
    (List.range rank).countP (fun i => !found.contains i) + found.length = rank := by
  have inside : ((List.range rank).filter fun i => found.contains i).Perm found := by
    rw [List.perm_ext_iff_of_nodup (List.nodup_range.filter _) nodup]
    intro i
    simp only [List.mem_filter, List.mem_range, List.contains_iff_mem]
    exact ⟨fun h => h.2, fun h => ⟨lt i h, h⟩⟩
  have total := List.length_eq_countP_add_countP (fun i => found.contains i) (l := List.range rank)
  rw [List.countP_eq_length_filter, inside.length_eq, List.length_range] at total
  simp only [Bool.not_eq_true, Bool.decide_eq_false] at total
  omega

/-! ## Removed and inserted dimensions -/

section

variable {δ : Type} {one : δ} {dims : List δ} {count : Nat}

/-- The dimensions from a position on without those at some axes. -/
def keptFrom (axes : List Nat) (i : Nat) (dims : List δ) : List δ :=
  ((dims.zipIdx i).filter fun p => !axes.contains p.2).map Prod.fst

theorem droppedShape_eq (axes : List Nat) : droppedShape dims axes = keptFrom axes 0 dims := rfl

@[simp] theorem keptFrom_nil (axes : List Nat) : keptFrom axes i ([] : List δ) = [] := rfl

theorem keptFrom_cons (axes : List Nat) (d : δ) :
    keptFrom axes i (d :: dims) =
      if axes.contains i then keptFrom axes (i + 1) dims else d :: keptFrom axes (i + 1) dims := by
  unfold keptFrom
  rw [List.zipIdx_cons, List.filter_cons]
  cases axes.contains i <;> rfl

/-- Only the axes themselves matter, not their order. -/
theorem droppedShape_perm {axes' : List Nat} (perm : found.Perm axes') :
    droppedShape dims found = droppedShape dims axes' := by
  have same : ∀ i, found.contains i = axes'.contains i := fun i => by
    rw [Bool.eq_iff_iff, List.contains_iff_mem, List.contains_iff_mem, perm.mem_iff]
  unfold droppedShape
  simp only [same]

theorem length_keptFrom (axes : List Nat) :
    (keptFrom axes i dims).length =
      (List.range' i dims.length).countP fun j => !axes.contains j := by
  induction dims generalizing i with
  | nil => rfl
  | cons d rest ih =>
      rw [keptFrom_cons, List.length_cons, List.range'_succ, List.countP_cons, ← ih]
      cases axes.contains i <;> simp

@[simp] theorem length_insertDims (axes : List Nat) :
    (insertDims axes one count i dims).length = count := by
  induction count generalizing i dims with
  | zero => rfl
  | succ count ih =>
      unfold insertDims
      split
      · rw [List.length_cons, ih]
      · split <;> rw [List.length_cons, ih]

theorem insertDims_perm {axes' : List Nat} (perm : found.Perm axes') :
    insertDims found one count i dims = insertDims axes' one count i dims := by
  have same : ∀ i, found.contains i = axes'.contains i := fun i => by
    rw [Bool.eq_iff_iff, List.contains_iff_mem, List.contains_iff_mem, perm.mem_iff]
  induction count generalizing i dims with
  | zero => rfl
  | succ count ih =>
      unfold insertDims
      simp only [same, ih]

theorem insertDims_of_mem (h : i ∈ found) :
    insertDims found one (count + 1) i dims = one :: insertDims found one count (i + 1) dims := by
  rw [insertDims.eq_def]
  exact if_pos (List.contains_iff_mem.2 h)

theorem insertDims_of_not_mem (h : i ∉ found) (d : δ) :
    insertDims found one (count + 1) i (d :: dims) =
      d :: insertDims found one count (i + 1) dims := by
  rw [insertDims.eq_def]
  exact if_neg (by rwa [List.contains_iff_mem])

/-- What is inserted among as many dimensions as there are places left can be removed again. -/
theorem keptFrom_insertDims (axes : List Nat)
    (h : (List.range' i count).countP (fun j => !axes.contains j) = dims.length) :
    keptFrom axes i (insertDims axes one count i dims) = dims := by
  induction count generalizing i dims with
  | zero =>
      rw [List.eq_nil_of_length_eq_zero h.symm]
      rfl
  | succ count ih =>
      rw [List.range'_succ, List.countP_cons] at h
      by_cases hi : i ∈ axes
      · rw [insertDims_of_mem hi, keptFrom_cons, if_pos (List.contains_iff_mem.2 hi)]
        exact ih (by simpa [hi] using h)
      · cases dims with
        | nil => simp [hi] at h
        | cons d rest =>
            rw [insertDims_of_not_mem hi, keptFrom_cons, if_neg (by rwa [List.contains_iff_mem]),
              ih (by simpa [hi] using h)]

/-- What is removed can be inserted again, when it is known. -/
theorem insertDims_keptFrom (axes : List Nat)
    (h : ∀ j d, dims[j]? = some d → i + j ∈ axes → d = one) :
    insertDims axes one dims.length i (keptFrom axes i dims) = dims := by
  induction dims generalizing i with
  | nil => rfl
  | cons d rest ih =>
      have later := ih (i := i + 1) fun j e he hj => h (j + 1) e he (by
        rwa [show i + (j + 1) = i + 1 + j by omega])
      rw [keptFrom_cons, List.length_cons]
      by_cases hi : i ∈ axes
      · rw [if_pos (List.contains_iff_mem.2 hi), insertDims_of_mem hi, later, h 0 d rfl hi]
      · rw [if_neg (by rwa [List.contains_iff_mem]), insertDims_of_not_mem hi, later]

/-- Inserted dimensions can be removed again. -/
theorem droppedShape_insertDims (nodup : found.Nodup) (lt : ∀ i ∈ found, i < rank)
    (h : dims.length + found.length = rank) :
    droppedShape (insertDims found one rank 0 dims) found = dims := by
  refine keptFrom_insertDims found ?_
  have kept := countP_range_not_mem nodup lt
  rw [← List.range_eq_range']
  omega

/-- Removed dimensions can be inserted again, when it is known what they were. -/
theorem insertDims_droppedShape (h : ∀ i ∈ found, ∀ d, dims[i]? = some d → d = one) :
    insertDims found one dims.length 0 (droppedShape dims found) = dims :=
  insertDims_keptFrom found fun j d hd hj => h j (by simpa using hj) d hd

/-- Distinct dimensions are removed one by one. -/
theorem length_droppedShape (nodup : found.Nodup) (lt : ∀ i ∈ found, i < dims.length) :
    (droppedShape dims found).length + found.length = dims.length := by
  rw [droppedShape_eq, length_keptFrom, ← List.range_eq_range']
  exact countP_range_not_mem nodup lt

end

end TensorGraph
