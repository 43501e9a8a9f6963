import TensorGraph.Proofs.Operator.Axes
import TensorGraph.Proofs.Tensor.Alike

/-!
# Tensors in another shape

Input:

* a tensor whose shape is changed twice.

A change of shape keeps the elements, so what comes out depends on the last shape only.  The target of
a reshape that copies no dimension has the same meaning for all tensors with as many elements
(`resolveReshape_congr`).

Main results:

* `resolveReshape_eq_ok`: the sizes that the target of a reshape stands for;
* `reshapeBy_reshapeBy`: the first of two reshapes does not matter;
* `alike_of_squeezeBy_unsqueezeBy` and `alike_of_unsqueezeBy_squeezeBy`: inserting and removing the same
  dimensions gives the tensor back.
-/

namespace TensorGraph

variable {t u w : Tensor} {shape : List Nat}

/-! ## Changes of shape -/

theorem reshapeTo_eq_ok_iff :
    reshapeTo t shape = .ok u ↔ elementCount shape = t.size ∧ t.isEvaluable = true ∧
      u = { shape := shape, elements := t.elements } := by
  unfold reshapeTo reshapeOrFault Tensor.reshaped?
  by_cases hcount : elementCount shape = t.size
  · by_cases hev : t.isEvaluable = true
    · simp [hcount, hev, orFault, eq_comm]
    · simp [hcount, hev, orFault]
  · simp [hcount]

/-- A tensor that is given its own shape again is the same one. -/
theorem alike_of_reshapeTo {s : List Nat} (h : reshapeTo t s = .ok u)
    (h' : reshapeTo u t.shape = .ok w) : w.Alike t := by
  obtain ⟨-, evaluable, rfl⟩ := reshapeTo_eq_ok_iff.1 h
  obtain ⟨-, -, rfl⟩ := reshapeTo_eq_ok_iff.1 h'
  exact .of_evaluable rfl rfl evaluable

/-! ## Reshaping -/

theorem foldlM_congr_of_mem {ε α β : Type} {l : List β} {f g : α → β → Except ε α}
    (h : ∀ y ∈ l, ∀ x, f x y = g x y) {x : α} : l.foldlM f x = l.foldlM g x := by
  induction l generalizing x with
  | nil => rfl
  | cons y rest ih =>
      rw [List.foldlM_cons, List.foldlM_cons, h y List.mem_cons_self]
      exact congrArg _ (funext fun x' => ih fun z hz => h z (List.mem_cons_of_mem _ hz))

/-- An entry means the same for all inputs unless it copies one of their dimensions. -/
theorem reshapeEntry_congr {input input' : List Nat} {allowZero : Bool} {entry : Int}
    (h : allowZero = true ∨ entry ≠ 0) (i : Nat) :
    reshapeEntry input allowZero i entry = reshapeEntry input' allowZero i entry := by
  have plain : ¬ (entry = 0 ∧ (!allowZero) = true) := by
    rintro ⟨hzero, hallow⟩
    rcases h with rfl | hne
    · cases hallow
    · exact hne hzero
  unfold reshapeEntry
  rw [if_neg plain, if_neg plain]

theorem reshapeEntries_congr {input input' : List Nat} {allowZero : Bool} {target : List Int}
    (h : allowZero = true ∨ 0 ∉ target) :
    reshapeEntries input allowZero target = reshapeEntries input' allowZero target := by
  have each : ∀ p ∈ target.zipIdx,
      reshapeEntry input allowZero p.2 p.1 = reshapeEntry input' allowZero p.2 p.1 := by
    refine fun p hp => reshapeEntry_congr (h.imp_right fun hno hzero => hno ?_) p.2
    exact hzero ▸ List.mem_of_getElem? (List.mk_mem_zipIdx_iff_getElem?.1 (show (p.1, p.2) ∈ _ from hp))
  unfold reshapeEntries
  refine foldlM_congr_of_mem fun p hp entries => ?_
  dsimp only
  rw [each p hp]

/-- A target has the same meaning for all inputs with as many elements, unless it copies dimensions.
-/
theorem resolveReshape_congr {input input' : List Nat} {allowZero : Bool} {target : List Int}
    (h : allowZero = true ∨ 0 ∉ target) (count : elementCount input = elementCount input') :
    resolveReshape input target allowZero = resolveReshape input' target allowZero := by
  unfold resolveReshape
  rw [reshapeEntries_congr h, count]

/-- The tensor with the shape that a target gives. -/
def reshapeBy (allowZero : Bool) (target : List Int) (t : Tensor) : OpResult Tensor :=
  resolveReshape t.shape target allowZero >>= reshapeTo t

theorem runReshape_eq (allowZero : Bool) (inputs : Inputs) :
    runReshape allowZero inputs =
      inputs.require 0 >>= fun t =>
        inputs.requireInts 1 >>= fun target => reshapeBy allowZero target t :=
  rfl

/-- A reshape may be left out before another one that copies no dimension. -/
theorem reshapeBy_reshapeBy {allowZero allowZero' : Bool} {target target' : List Int}
    (h : allowZero' = true ∨ 0 ∉ target') (hu : reshapeBy allowZero target t = .ok u) :
    reshapeBy allowZero' target' u = reshapeBy allowZero' target' t := by
  unfold reshapeBy at hu
  cases hs : resolveReshape t.shape target allowZero with
  | error e =>
      rw [hs] at hu
      cases hu
  | ok shape =>
      rw [hs] at hu
      obtain ⟨count, evaluable, rfl⟩ := reshapeTo_eq_ok_iff.1 hu
      unfold reshapeBy
      rw [resolveReshape_congr h count]
      refine congrArg _ (funext fun shape' => ?_)
      unfold reshapeTo reshapeOrFault Tensor.reshaped?
      rw [show Tensor.size { shape := shape, elements := t.elements } = t.size from count]
      rfl

/-! ## What a target stands for -/

section

variable {input : List Nat} {allowZero : Bool} {target : List Int} {entries : List (Option Nat)}

/-- The entry that is to be found is the one that is written as -1. -/
theorem reshapeEntry_eq_none_iff {i : Nat} {entry : Int} {found : Option Nat}
    (h : reshapeEntry input allowZero i entry = .ok found) : found = none ↔ entry = -1 := by
  unfold reshapeEntry at h
  split at h
  · cases h
    simpa
  · rename_i given
    have some_size : found ≠ none := by
      split at h
      · obtain ⟨n, -, rfl⟩ := map_eq_ok_iff.1 h
        exact nofun
      · split at h
        · cases h
        · cases h
          exact nofun
    exact ⟨fun hnone => absurd hnone some_size, fun heq => absurd heq given⟩

/-- Each entry of a target has its meaning, and one at most is to be found. -/
theorem reshapeEntries_eq_ok (h : reshapeEntries input allowZero target = .ok entries) :
    List.Forall₂ (fun p found => reshapeEntry input allowZero p.2 p.1 = .ok found) target.zipIdx
      entries ∧ entries.count none ≤ 1 := by
  have step : ∀ (l : List (Int × Nat)) (first out : List (Option Nat)), first.count none ≤ 1 →
      l.foldlM (fun entries p => do
        let found ← reshapeEntry input allowZero p.2 p.1
        if found.isNone && entries.contains none then
          .error (.invalidValue "multiple -1 dims in shape")
        else return entries ++ [found]) first = .ok out →
      ∃ rest, out = first ++ rest ∧ out.count none ≤ 1 ∧
        List.Forall₂ (fun p found => reshapeEntry input allowZero p.2 p.1 = .ok found) l rest := by
    intro l
    induction l with
    | nil =>
        rintro first out once ⟨⟩
        exact ⟨[], by simp, once, .nil⟩
    | cons p l ih =>
        intro first out once h
        rw [List.foldlM_cons] at h
        obtain ⟨next, hnext, h⟩ := bind_eq_ok_iff.1 h
        obtain ⟨found, hfound, hnext⟩ := bind_eq_ok_iff.1 hnext
        split at hnext
        · cases hnext
        · rename_i single
          cases hnext
          have once' : (first ++ [found]).count none ≤ 1 := by
            rw [List.count_append]
            cases found with
            | some n => simpa using once
            | none =>
                have absent : none ∉ first := by simpa using single
                simp [List.count_eq_zero_of_not_mem absent]
          obtain ⟨rest, hout, once'', each⟩ := ih _ _ once' h
          exact ⟨found :: rest, by simpa using hout, once'', .cons hfound each⟩
  obtain ⟨rest, rfl, once, each⟩ := step target.zipIdx [] entries (by simp) h
  exact ⟨each, once⟩

/-- The sizes that a target stands for.  The size that is to be found fills what the others, none of which
is zero, leave. -/
theorem resolveReshape_eq_ok (h : resolveReshape input target allowZero = .ok shape) :
    shape.length = target.length ∧
    (∀ i v, target[i]? = some v → v ≠ -1 →
      ∃ n, reshapeEntry input allowZero i v = .ok (some n) ∧ shape[i]? = some n) ∧
    ∀ i, target[i]? = some (-1) →
      (∀ j, target[j]? = some (-1) → j = i) ∧ elementCount (shape.eraseIdx i) ≠ 0 := by
  obtain ⟨entries, hentries, h⟩ := bind_eq_ok_iff.1 h
  obtain ⟨each, once⟩ := reshapeEntries_eq_ok hentries
  dsimp only at h
  have filled : ∃ size, shape = entries.map (·.getD size) ∧
      (none ∈ entries → elementCount (entries.map (·.getD 1)) ≠ 0) := by
    split at h
    · split at h
      · cases h
      · rename_i divides
        cases h
        exact ⟨_, rfl, fun _ => (not_or.1 divides).1⟩
    · rename_i none_found
      cases h
      exact ⟨1, rfl, fun mem => absurd (by simpa using mem) none_found⟩
  obtain ⟨size, rfl, nonzero⟩ := filled
  have length : entries.length = target.length := by
    rw [← each.length_eq, List.length_zipIdx]
  have meaning : ∀ i v, target[i]? = some v → ∃ found,
      reshapeEntry input allowZero i v = .ok found ∧ entries[i]? = some found := by
    intro i v hv
    obtain ⟨bound, rfl⟩ := List.getElem?_eq_some_iff.1 hv
    have entry := (List.forall₂_iff_get.1 each).2 i (by simpa using bound) (length ▸ bound)
    exact ⟨_, by simpa using entry, List.getElem?_eq_getElem _⟩
  refine ⟨by rw [List.length_map, length], fun i v hv given => ?_, fun i hi => ?_⟩
  · obtain ⟨found, hfound, hentry⟩ := meaning i v hv
    cases found with
    | none => exact absurd ((reshapeEntry_eq_none_iff hfound).1 rfl) given
    | some n => exact ⟨n, hfound, by rw [List.getElem?_map, hentry]; rfl⟩
  · -- There is no other entry to be found before or behind this one.
    have unknown : ∀ j : Nat, target[j]? = some (-1) → entries[j]? = some none := by
      intro j hj
      obtain ⟨found, hfound, hentry⟩ := meaning j _ hj
      rwa [(reshapeEntry_eq_none_iff hfound).2 rfl] at hentry
    obtain ⟨bound, here⟩ := List.getElem?_eq_some_iff.1 (unknown i hi)
    have parts : entries = entries.take i ++ none :: entries.drop (i + 1) := by
      rw [← here, List.cons_getElem_drop_succ, List.take_append_drop]
    have absent : none ∉ entries.take i ∧ none ∉ entries.drop (i + 1) := by
      rw [parts, List.count_append, List.count_cons_self] at once
      exact ⟨List.count_eq_zero.1 (by omega), List.count_eq_zero.1 (by omega)⟩
    refine ⟨fun j hj => ?_, ?_⟩
    · rcases lt_trichotomy j i with before | same | behind
      · refine absurd (List.mem_of_getElem? (i := j) ?_) absent.1
        rw [List.getElem?_take_of_lt before, unknown j hj]
      · exact same
      · refine absurd (List.mem_of_getElem? (i := j - (i + 1)) ?_) absent.2
        rw [List.getElem?_drop, Nat.add_sub_cancel' behind, unknown j hj]
    · have fill : ∀ l : List (Option Nat), none ∉ l →
          l.map (·.getD size) = l.map (·.getD 1) := by
        intro l hl
        refine List.map_congr_left fun o ho => ?_
        cases o with
        | none => exact absurd ho hl
        | some n => rfl
      have known := nonzero (List.mem_of_getElem? (unknown i hi))
      rw [parts, List.map_append, List.map_cons, elementCount_append, elementCount_cons,
        Option.getD_none, Nat.one_mul, ← elementCount_append] at known
      rwa [List.eraseIdx_eq_take_drop_succ, ← List.map_take, ← List.map_drop, fill _ absent.1,
        fill _ absent.2]

end
/-! ## Inserting and removing dimensions -/

/-- The tensor without the dimensions at some axes. -/
def squeezeBy (axes : List Int) (t : Tensor) : OpResult Tensor := do
  let axes ← resolveAxes t.rank axes
  if axes.any fun axis => t.shape.getD axis 1 ≠ 1 then
    .error (.invalidValue "can only remove dims of size 1")
  else reshapeTo t (droppedShape t.shape axes)

/-- The tensor with new dimensions at some axes. -/
def unsqueezeBy (axes : List Int) (t : Tensor) : OpResult Tensor := do
  reshapeTo t (← unsqueezeShape t.shape axes 1)

theorem runSqueeze_some {given : Option (List Int)} {inputs : Inputs} {axes : List Int}
    (h : axesInput given inputs = .ok (some axes)) :
    runSqueeze given inputs = inputs.require 0 >>= squeezeBy axes := by
  unfold runSqueeze
  rw [h]
  rfl

theorem runUnsqueeze_some {given : Option (List Int)} {inputs : Inputs} {axes : List Int}
    (h : axesInput given inputs = .ok (some axes)) :
    runUnsqueeze given inputs = inputs.require 0 >>= unsqueezeBy axes := by
  unfold runUnsqueeze
  rw [h]
  rfl

theorem squeezeBy_eq_ok {axes : List Int} (h : squeezeBy axes t = .ok u) :
    ∃ found, resolveAxes t.rank axes = .ok found ∧ (∀ i ∈ found, t.shape.getD i 1 = 1) ∧
      reshapeTo t (droppedShape t.shape found) = .ok u := by
  unfold squeezeBy at h
  cases hfound : resolveAxes t.rank axes with
  | error e =>
      rw [hfound] at h
      cases h
  | ok found =>
      simp only [hfound, bind, Except.bind] at h
      split at h
      · cases h
      · rename_i none
        refine ⟨found, rfl, fun i hi => ?_, h⟩
        by_contra hne
        exact none (List.any_eq_true.2 ⟨i, hi, decide_eq_true hne⟩)

theorem unsqueezeBy_eq_ok {axes : List Int} (h : unsqueezeBy axes t = .ok u) :
    ∃ found, resolveAxes (t.rank + axes.length) axes = .ok found ∧
      reshapeTo t (insertDims found 1 (t.rank + axes.length) 0 t.shape) = .ok u := by
  unfold unsqueezeBy unsqueezeShape at h
  dsimp only at h
  cases hfound : resolveAxes (t.shape.length + axes.length) axes with
  | error e =>
      rw [hfound] at h
      cases h
  | ok found =>
      rw [hfound] at h
      exact ⟨found, hfound, h⟩

variable {inner outer : List Int} {found found' : List Nat}

/-- Removing the dimensions that were inserted, in whatever order they are listed. -/
theorem alike_of_squeezeBy_unsqueezeBy
    (hinner : inner.mapM (resolveAxis? (t.rank + inner.length)) = some found)
    (houter : outer.mapM (resolveAxis? (t.rank + inner.length)) = some found')
    (perm : found'.Perm found) (h : unsqueezeBy inner t = .ok u) (h' : squeezeBy outer u = .ok w) :
    w.Alike t := by
  obtain ⟨inserted, hi, hu⟩ := unsqueezeBy_eq_ok h
  obtain ⟨hsome, nodup⟩ := resolveAxes_eq_ok_iff.1 hi
  obtain rfl := Option.some.inj (hinner.symm.trans hsome)
  obtain ⟨removed, hr, -, hw⟩ := squeezeBy_eq_ok h'
  have shape : u.shape = insertDims found 1 (t.rank + inner.length) 0 t.shape := by
    obtain ⟨-, -, rfl⟩ := reshapeTo_eq_ok_iff.1 hu
    rfl
  have rank : u.rank = t.rank + inner.length := by rw [Tensor.rank, shape, length_insertDims]
  rw [rank] at hr
  obtain rfl := Option.some.inj (houter.symm.trans (resolveAxes_eq_ok_iff.1 hr).1)
  rw [droppedShape_perm perm, shape, droppedShape_insertDims nodup
    (lt_of_mapM_resolveAxis? hinner) (by rw [length_of_mapM_eq_some hinner]; rfl)] at hw
  exact alike_of_reshapeTo hu hw

/-- Inserting the dimensions that were removed, in whatever order they are listed. -/
theorem alike_of_unsqueezeBy_squeezeBy
    (hinner : inner.mapM (resolveAxis? t.rank) = some found)
    (houter : outer.mapM (resolveAxis? t.rank) = some found')
    (perm : found'.Perm found) (h : squeezeBy inner t = .ok u) (h' : unsqueezeBy outer u = .ok w) :
    w.Alike t := by
  obtain ⟨removed, hr, ones, hu⟩ := squeezeBy_eq_ok h
  obtain ⟨hsome, nodup⟩ := resolveAxes_eq_ok_iff.1 hr
  obtain rfl := Option.some.inj (hinner.symm.trans hsome)
  obtain ⟨inserted, hi, hw⟩ := unsqueezeBy_eq_ok h'
  have shape : u.shape = droppedShape t.shape found := by
    obtain ⟨-, -, rfl⟩ := reshapeTo_eq_ok_iff.1 hu
    rfl
  have rank : u.rank + outer.length = t.rank := by
    rw [Tensor.rank, shape, ← length_of_mapM_eq_some houter, perm.length_eq]
    exact length_droppedShape nodup (lt_of_mapM_resolveAxis? hinner)
  rw [rank] at hi hw
  obtain rfl := Option.some.inj (houter.symm.trans (resolveAxes_eq_ok_iff.1 hi).1)
  have size : ∀ i ∈ found, ∀ d, t.shape[i]? = some d → d = 1 := by
    intro i hi d hd
    have one := ones i hi
    rwa [List.getD_eq_getElem?_getD, hd] at one
  rw [insertDims_perm perm, shape, Tensor.rank, insertDims_droppedShape size] at hw
  exact alike_of_reshapeTo hu hw

end TensorGraph
