import Mathlib
import TensorGraph.Proofs.Evaluation.Determined
import TensorGraph.Proofs.Number.Binary64
import TensorGraph.Simplification.Equivalence

/-!
# A graph is equivalent to itself

Input:

* a deterministic graph that can be run on the samples that the options ask for;
* tolerances that are not negative.

Algorithm:

* both runs of a sample give the same tensors, whatever they draw by chance;
* outputs of the same name are the same tensor, so each output is compared with itself.

A tensor compares equal to itself if its elements can be compared (`Tensor.Comparable`).
Floating-point numbers are compared as numbers of 64 bits, so their elements must be available.
Elements of the other types are compared as they are stored, which must be in the file.

Main results:

* `Tolerance.acceptsTensor_self`: a comparable tensor is close enough to itself;
* `Graph.isEquivalent_self`: a graph with comparable outputs is equivalent to itself;
* `Graph.isEquivalent_storing_incomparable`: a graph that gives a number in half precision, or a
  tensor that is stored outside of the file, is not.
-/

namespace TensorGraph

/-! ## Tensors that can be compared -/

/-- A tensor whose elements can be compared with those of other tensors. -/
inductive Tensor.Comparable (t : Tensor) : Prop where
  /-- Floating-point numbers, none of them infinite.  They may be NaN. -/
  | float {xs : Array Binary64} (float : t.elementType.isFloat = true)
      (elements : t.elements.toBinary64s? = some xs) (bounded : ∀ x ∈ xs, x.isInfinite = false)
  | exact (other : t.elementType.isFloat = false) (evaluable : t.isEvaluable = true)
  /-- Elements that are not available, stored in the file. -/
  | stored {m : Message.Tensor} (other : t.elementType.isFloat = false) (source : t.source = some m)
      (inside : m.externalData = [])

/-- A tensor with elements has the contents of itself. -/
theorem Tensor.sameContents_self_of_isEvaluable {t : Tensor} (h : t.isEvaluable = true) :
    t.sameContents t = true := by
  obtain ⟨shape, elements, source⟩ := t
  cases elements with
  | opaqueOf type => cases h
  | _ => simp [sameContents]

/-- A tensor that is stored in the file has the contents of itself. -/
theorem Tensor.sameContents_self_of_stored {t : Tensor} {m : Message.Tensor}
    (source : t.source = some m) (inside : m.externalData = []) : t.sameContents t = true := by
  obtain ⟨shape, elements, _⟩ := t
  subst source
  cases elements with
  | opaqueOf type => simp [sameContents, inside]
  | _ => simp [sameContents]

namespace Tolerance

variable {t : Tolerance}

/-- The tolerances are at least zero, and the relative one is finite. -/
structure Nonneg (t : Tolerance) : Prop where
  relative : Binary64.le .zero t.relative = true
  absolute : Binary64.le .zero t.absolute = true
  finite : t.relative.isInfinite = false

/-- How far a number may be off is at least zero. -/
theorem Nonneg.isNonneg_bound (h : t.Nonneg) {x : Binary64} (nan : x.isNaN = false)
    (infinite : x.isInfinite = false) :
    Binary64.IsNonneg (t.absolute.add (t.relative.mul x.abs)).parts := by
  have absolute := t.absolute.le_zero_iff.1 h.absolute
  have relative := t.relative.le_zero_iff.1 h.relative
  have share : Binary64.IsNonneg (t.relative.mul x.abs).parts :=
    Binary64.isNonneg_mul relative (Binary64.isNonneg_abs nan) h.finite
      (x.isInfinite_abs.trans infinite)
  exact Binary64.isNonneg_add absolute share

/-- A number that is not infinite is close enough to itself. -/
theorem accepts_self (h : t.Nonneg) {x : Binary64} (infinite : x.isInfinite = false) :
    t.accepts x x = true := by
  unfold accepts
  cases nan : x.isNaN with
  | true => rfl
  | false =>
      have off : (x.sub x).abs = .zero := by
        rw [Binary64.sub_same nan infinite]
        rfl
      rw [off, (Binary64.le_zero_iff _).2 (h.isNonneg_bound nan infinite)]
      rfl

/-- A comparable tensor is close enough to itself. -/
theorem acceptsTensor_self (h : t.Nonneg) {x : Tensor} (comparable : x.Comparable) :
    t.acceptsTensor x x = true := by
  unfold acceptsTensor
  cases comparable with
  | float float elements bounded =>
      simp only [decide_true, Bool.true_and, float, if_true, elements]
      rw [Array.all_eq_true']
      intro p hp
      obtain ⟨i, hi, rfl⟩ := Array.getElem_of_mem hp
      rw [Array.getElem_zip]
      exact accepts_self h (bounded _ (Array.getElem_mem _))
  | exact other evaluable =>
      simp [other, Tensor.sameContents_self_of_isEvaluable evaluable]
  | stored other source inside =>
      simp [other, Tensor.sameContents_self_of_stored source inside]

end Tolerance

/-! ## Outputs -/

namespace Graph

variable {g : Graph} {version : Option Int64} {chance : Generator} {inputs outer : Scope Tensor}

/-- The outputs of a run are values of one scope. -/
theorem get?_of_mem_namedOutputs {V : Scope Tensor} {outputs : List Tensor}
    (values : g.outputValues V = .ok outputs) {p : String × Tensor}
    (hp : p ∈ g.namedOutputs outputs) : V.get? p.1 = some p.2 := by
  have given := outputValues_eq_ok_iff.1 values
  clear values
  unfold namedOutputs at hp
  generalize g.outputs = declared at given hp
  induction given with
  | nil => cases hp
  | cons head tail ih =>
      rw [List.map_cons, List.zip_cons_cons, List.mem_cons] at hp
      rcases hp with rfl | hp
      · exact head
      · exact ih hp

/-- So outputs of the same name are the same tensor. -/
theorem lookup_namedOutputs {outputs : List Tensor}
    (run : g.runIn version chance inputs outer = .ok outputs) {p : String × Tensor}
    (hp : p ∈ g.namedOutputs outputs) : (g.namedOutputs outputs).lookup p.1 = some p.2 := by
  obtain ⟨V, -, values⟩ := runIn_eq_ok run
  cases found : (g.namedOutputs outputs).lookup p.1 with
  | none => simpa using List.lookup_eq_none_iff.1 found p hp
  | some t =>
      obtain ⟨before, after, split, -⟩ := List.lookup_eq_some_iff.1 found
      have mem : (p.1, t) ∈ g.namedOutputs outputs := by
        rw [split]
        simp
      have same := get?_of_mem_namedOutputs values mem
      rw [get?_of_mem_namedOutputs values hp] at same
      exact same.symm

/-- A deterministic graph agrees with itself on a sample on which its outputs are comparable. -/
theorem agreesOn_self {o : Options} (deterministic : g.Deterministic version)
    (tolerance : o.tolerance.Nonneg) {seed : UInt64} {outputs : List Tensor}
    (sample : g.sampleInputs o seed = .ok inputs)
    (run : g.run version ⟨2 * seed⟩ inputs = .ok outputs)
    (comparable : ∀ t ∈ outputs, t.Comparable) : g.agreesOn g version o seed = .ok true := by
  have again : g.run version ⟨2 * seed + 1⟩ inputs = .ok outputs := by
    rw [← run]
    exact runIn_eq_of_sameDraws (deterministic.sameDraws _ _) inputs []
  have accepted :
      o.tolerance.acceptsOutputs (g.namedOutputs outputs) (g.namedOutputs outputs) = true := by
    unfold Tolerance.acceptsOutputs
    rw [List.all_eq_true]
    intro p hp
    dsimp only
    rw [lookup_namedOutputs run hp]
    exact Tolerance.acceptsTensor_self tolerance (comparable _ (List.of_mem_zip hp).2)
  simp [agreesOn, sample, run, again, accepted, Except.mapError, bind, Except.bind, pure,
    Except.pure]

/-- A deterministic graph is equivalent to itself, for every number of samples, all tolerances that
are not negative and all tensors given for its inputs, if it can be run on all samples and gives
comparable outputs. -/
theorem isEquivalent_self {o : Options} (deterministic : g.Deterministic version)
    (tolerance : o.tolerance.Nonneg)
    (runs : ∀ i < o.samples, ∃ inputs outputs, g.sampleInputs o (.ofNat i) = .ok inputs ∧
      g.run version ⟨2 * .ofNat i⟩ inputs = .ok outputs ∧ ∀ t ∈ outputs, t.Comparable) :
    g.isEquivalent g version o = .ok true := by
  have each : (List.range o.samples).mapM (fun i => g.agreesOn g version o (.ofNat i)) =
      .ok ((List.range o.samples).map fun _ => true) := by
    rw [mapM_eq_ok_iff, List.forall₂_map_right_iff, List.forall₂_same]
    intro i hi
    obtain ⟨inputs, outputs, sample, run, comparable⟩ := runs i (List.mem_range.1 hi)
    exact agreesOn_self deterministic tolerance sample run comparable
  unfold isEquivalent
  rw [each]
  simp [bind, Except.bind, pure, Except.pure]

/-- A graph that negates its input and gives another output as it is stored. -/
def negatesAndStores : Graph where
  initializers := [⟨"s", { shape := [1], elements := .opaqueOf .uint16
                           source := some { dims := [1], dataType := some 4, int32Data := [7] } }⟩]
  nodes := [{ opType := "Neg", inputs := ["x"], outputs := ["y"] }]
  inputs := [{ name := "x" }]
  outputs := [{ name := "y" }, { name := "s" }]

/-- The graph is equivalent to itself on an input with a NaN. -/
theorem isEquivalent_negatesAndStores_self :
    let x : Tensor := .ofArray [2] #[Binary64.nan, .one]
    let o : Options := { samples := 2, customTensors := [("x", x)] }
    negatesAndStores.isEquivalent negatesAndStores (some 13) o = .ok true := by
  intro x o
  have deterministic : negatesAndStores.Deterministic (some 13) :=
    deterministic_of_predictable (by decide +kernel)
  have tolerance : o.tolerance.Nonneg := ⟨by decide +kernel, by decide +kernel, by decide +kernel⟩
  refine isEquivalent_self deterministic tolerance fun i _ => ?_
  have run : ∀ chance, negatesAndStores.run (some 13) chance [("x", x)] =
      .ok [.ofArray [2] #[Binary64.nan.neg, Binary64.one.neg],
        (negatesAndStores.initializers.head (by decide)).value] := fun chance =>
    runIn_of_next? [0] (by decide +kernel) rfl rfl (by cbv)
  refine ⟨[("x", x)], _, rfl, run _, ?_⟩
  intro t ht
  rw [List.mem_cons, List.mem_singleton] at ht
  rcases ht with rfl | rfl
  · refine .float rfl rfl ?_
    rw [Array.forall_mem_map]
    decide +kernel
  · exact .stored rfl rfl rfl

/-- A graph that gives a tensor as it is stored. -/
def storing (t : Tensor) : Graph where
  initializers := [⟨"y", t⟩]
  outputs := [{ name := "y" }]

theorem run_storing (t : Tensor) (chance : Generator) :
    (storing t).run version chance [] = .ok [t] :=
  runIn_of_next? [] rfl rfl rfl rfl

/-- Such a graph is equivalent to itself just if the tensor compares equal to itself. -/
theorem isEquivalent_storing (t : Tensor) :
    (storing t).isEquivalent (storing t) version { samples := 1 } =
      .ok (Tolerance.acceptsTensor {} t t) := by
  have compared : (storing t).agreesOn (storing t) version { samples := 1 } 0 =
      .ok (Tolerance.acceptsTensor {} t t) := by
    have sample : (storing t).sampleInputs { samples := 1 } 0 = .ok [] := rfl
    have named : (storing t).namedOutputs [t] = [("y", t)] := rfl
    simp [agreesOn, sample, run_storing, named, Tolerance.acceptsOutputs, Except.mapError, bind,
      Except.bind, pure, Except.pure]
  simp [isEquivalent, List.range_one, compared, bind, Except.bind, pure, Except.pure]

/-- The number 1 in half precision. -/
def half : Tensor where
  shape := [1]
  elements := .opaqueOf .float16
  source := some { dims := [1], dataType := some 10, name := some "y"
                   rawData := some [0x00, 0x3c] }

/-- An integer of 16 bits that is stored in another file. -/
def elsewhere : Tensor where
  shape := [1]
  elements := .opaqueOf .uint16
  source := some { dims := [1], dataType := some 4, name := some "y", dataLocation := some 1
                   externalData := [{ key := some "location", value := some "w.bin" }] }

/-- An output that cannot be compared is rejected, although the graph is compared with itself. -/
theorem isEquivalent_storing_incomparable :
    (storing half).Deterministic (some 13) ∧
      (storing half).run (some 13) ⟨0⟩ [] = .ok [half] ∧
      (storing half).isEquivalent (storing half) (some 13) { samples := 1 } = .ok false ∧
    (storing elsewhere).Deterministic (some 13) ∧
      (storing elsewhere).run (some 13) ⟨0⟩ [] = .ok [elsewhere] ∧
      (storing elsewhere).isEquivalent (storing elsewhere) (some 13) { samples := 1 } =
        .ok false := by
  have deterministic : ∀ t, (storing t).Deterministic (some 13) := fun t =>
    deterministic_of_predictable (by cbv)
  exact ⟨deterministic half, run_storing half ⟨0⟩, isEquivalent_storing half,
    deterministic elsewhere, run_storing elsewhere ⟨0⟩, isEquivalent_storing elsewhere⟩

end Graph
end TensorGraph
