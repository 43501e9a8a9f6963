import TensorGraph.Facts.Basic
import TensorGraph.Proofs.Dimension.Holds

/-!
# Facts that are true of inputs

Input:

* the inputs of an operator and facts about each of them (`InputFacts.TrueOf`): the facts hold of the
  inputs when the names have certain values, and their expressions are simplified exactly.

Results:

* what an operator asks of its inputs, a rule can ask of the facts: a tensor (`InputFacts.TrueOf.require`) or
  integers (`InputFacts.TrueOf.ints?_of_integers?`).
-/

namespace TensorGraph

namespace Facts

variable {σ : String → Int} {f : Facts} {t : Tensor}

/-- Whether all expressions in facts are simplified exactly. -/
structure Exact (σ : String → Int) (f : Facts) : Prop where
  shape : ∀ dims, f.shape = some dims → ∀ d ∈ dims, d.Exact σ
  values : ∀ values, f.values = some values → ∀ e ∈ values, e.Exact σ

theorem exact_iff : f.Exact σ ↔ (∀ dims, f.shape = some dims → ∀ d ∈ dims, d.Exact σ) ∧
    ∀ values, f.values = some values → ∀ e ∈ values, e.Exact σ :=
  ⟨fun h => ⟨h.shape, h.values⟩, fun h => ⟨h.1, h.2⟩⟩

/-- Facts without the elements are facts about the type and the shape. -/
theorem holds_withoutValues (type : ∀ type, f.type = some type → t.elementType = type)
    (shape : ∀ dims, f.shape = some dims → Dim.AllHold σ dims t.shape) :
    f.withoutValues.Holds σ t :=
  ⟨type, shape, nofun⟩

/-- The elements of a tensor are the values of the elements that are known. -/
theorem Holds.intList_eq (h : f.Holds σ t) {values : List SizeExpr} (hv : f.values = some values) :
    t.intList = .ok (values.map (SizeExpr.eval σ)) := by
  obtain ⟨xs, hxs, hints⟩ := Option.map_eq_some_iff.1 (h.values_eq values hv)
  unfold Tensor.intList
  rw [hxs, ← hints]
  rfl

/-- Elements that are known to be integers are those of the tensor. -/
theorem Holds.intList_of_integers? (h : f.Holds σ t) {vs : List Int} (hv : f.integers? = some vs) :
    t.intList = .ok vs := by
  obtain ⟨values, hvalues, hv⟩ := Option.bind_eq_some_iff.1 hv
  rw [h.intList_eq hvalues, SizeExpr.map_eval_eq hv]

end Facts

namespace Inputs

variable {inputs : Inputs} {t : Tensor} {i : Nat}

theorem require_eq_ok_iff : inputs.require i = .ok t ↔ inputs.get? i = some t := orFault_eq_ok_iff

/-- An operator that asks for integers gets those of an input. -/
theorem requireInts_eq_ok_iff {vs : List Int} : inputs.requireInts i = .ok vs ↔
    ∃ t, inputs.get? i = some t ∧ t.intList = .ok vs := by
  unfold requireInts ints?
  cases inputs.get? i with
  | none => simp [orFault, bind, Except.bind]
  | some t =>
      simp only [Option.some.injEq, exists_eq_left']
      cases t.intList <;> simp [orFault, bind, Except.bind, Except.map]

end Inputs

/-- Sizes are the integers that they are read from. -/
theorem map_natCast_of_toSizes {values : List Int} {sizes : List Nat}
    (h : toSizes values = .ok sizes) : sizes.map (Nat.cast : Nat → Int) = values := by
  unfold toSizes at h
  split at h
  · rename_i nonneg
    cases h
    rw [List.map_map]
    refine (List.map_congr_left fun v hv => ?_).trans (List.map_id _)
    have sign : 0 ≤ v := by simpa using List.all_eq_true.1 nonneg v hv
    exact Int.toNat_of_nonneg sign
  · cases h

namespace InputFacts

variable {σ : String → Int} {fs : InputFacts} {inputs : Inputs} {i : Nat} {t : Tensor} {f : Facts}

/-- Whether there are facts about each input that is there, and about no other one, that hold of it when
the names have the given values. -/
structure TrueOf (σ : String → Int) (fs : InputFacts) (inputs : Inputs) : Prop where
  holds : List.Forall₂ (Option.Rel (Facts.Holds σ)) fs inputs
  simplifies : ∀ f, some f ∈ fs → f.Exact σ

theorem require_of_get? (h : fs.get? i = some f) : fs.require i = .ok f := by
  unfold require
  rw [h]

namespace TrueOf

/-- An input is omitted where there are no facts. -/
theorem rel_get? (h : fs.TrueOf σ inputs) (i : Nat) :
    Option.Rel (Facts.Holds σ) (fs.get? i) (inputs.get? i) := by
  have related := rel_getElem? h.holds i
  unfold InputFacts.get? Inputs.get?
  generalize fs[i]? = o at related ⊢
  generalize inputs[i]? = o' at related ⊢
  cases related with
  | none => exact .none
  | some inner => exact inner

theorem mem_of_get? (hf : fs.get? i = some f) : some f ∈ fs :=
  List.mem_of_getElem? (Option.join_eq_some_iff.1 hf)

/-- There are facts about an input that is there. -/
theorem exists_facts (h : fs.TrueOf σ inputs) (ht : inputs.get? i = some t) :
    ∃ f, fs.get? i = some f ∧ f.Holds σ t ∧ f.Exact σ := by
  have related := h.rel_get? i
  rw [ht] at related
  generalize hf : fs.get? i = o at related
  cases related with
  | some holds => exact ⟨_, rfl, holds, h.simplifies _ (mem_of_get? hf)⟩

/-- There is an input where there are facts. -/
theorem exists_input (h : fs.TrueOf σ inputs) (hf : fs.get? i = some f) :
    ∃ t, inputs.get? i = some t ∧ f.Holds σ t ∧ f.Exact σ := by
  have related := h.rel_get? i
  rw [hf] at related
  generalize inputs.get? i = o at related ⊢
  cases related with
  | some holds => exact ⟨_, rfl, holds, h.simplifies _ (mem_of_get? hf)⟩

/-- What an operator asks for can be asked of the facts. -/
theorem require (h : fs.TrueOf σ inputs) (ht : inputs.require i = .ok t) :
    ∃ f, fs.require i = .ok f ∧ f.Holds σ t ∧ f.Exact σ := by
  obtain ⟨f, hf, holds, simplifies⟩ := h.exists_facts (Inputs.require_eq_ok_iff.1 ht)
  exact ⟨f, require_of_get? hf, holds, simplifies⟩

/-- Integers that an operator may leave out are omitted where there are no facts. -/
theorem ints?_of_none (h : fs.TrueOf σ inputs) (hf : fs.get? i = none) :
    inputs.ints? i = .ok none := by
  have related := h.rel_get? i
  rw [hf] at related
  unfold Inputs.ints?
  generalize inputs.get? i = o at related ⊢
  cases related
  rfl

/-- Integers that are known are those that an operator gets. -/
theorem ints?_of_integers? (h : fs.TrueOf σ inputs) (hf : fs.get? i = some f) {vs : List Int}
    (hv : f.integers? = some vs) : inputs.ints? i = .ok (some vs) := by
  obtain ⟨t, ht, holds, -⟩ := h.exists_input hf
  unfold Inputs.ints?
  rw [ht]
  dsimp only
  rw [holds.intList_of_integers? hv]
  rfl

end TrueOf
end InputFacts
end TensorGraph
