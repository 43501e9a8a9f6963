import TensorGraph.Operator.Reading
import TensorGraph.Proofs.Operator.Broadcasting
import TensorGraph.Proofs.Operator.Layout
import TensorGraph.Proofs.Operator.Product

/-!
# Outputs of kernels

Input:

* a kernel that was read from a storable node, and storable inputs.

Main results:

* `Kernel.ensures_run`: the outputs of a kernel can be stored;
* `Operator.ensures_readKernel?`: the tensors in a kernel that was read can be stored.
-/

namespace TensorGraph

/-! ## Generated tensors -/

theorem ensures_runConstantOfShape (value : Tensor) (inputs : Inputs) :
    Ensures (runConstantOfShape value inputs) Tensor.Computed := by
  refine Ensures.bind_any fun values => Ensures.bind_any fun shape => ?_
  refine Ensures.dispatch fun α _ _ => Ensures.bind_any fun x => Ensures.pure ?_
  exact Tensor.computed_ofArray Array.size_replicate

theorem ensures_runRange (inputs : Inputs) : Ensures (runRange inputs) Tensor.Computed := by
  refine Ensures.bind_any fun start => Ensures.dispatchNumeric fun α _ _ _ => ?_
  refine Ensures.bind_any fun first => Ensures.bind_any fun limit => Ensures.bind_any fun delta => ?_
  exact Ensures.bind_any fun count => Ensures.pure (Tensor.computed_vector _)

theorem ensures_runDropout (training : Bool) {inputs : Inputs} (outputs : Option Nat)
    (h : inputs.Storable) :
    Ensures (runDropout training inputs outputs) fun ts => ∀ t ∈ ts, t.Storable := by
  refine Ensures.bind (h.require 0) fun t ht => ?_
  have single : ∀ s ∈ [t], s.Storable := by
    intro s hs
    rw [List.mem_singleton.1 hs]
    exact ht
  have last : ∀ training : Bool, Ensures (ε := OpFault) (
      if training then .error (.unsupportedValue "training mode is not supported")
      else if 1 < outputs.getD 1 then
        pure [t, .ofArray t.shape (Array.replicate t.size true)]
      else pure [t]) fun ts => ∀ t ∈ ts, t.Storable := by
    intro training
    split
    · exact Ensures.error
    · split
      · refine Ensures.pure fun s hs => ?_
        rcases List.mem_cons.1 hs with rfl | hs
        · exact ht
        · rw [List.mem_singleton.1 hs]
          exact (Tensor.computed_ofArray Array.size_replicate).storable
      · exact Ensures.pure single
  dsimp only
  split
  · exact Ensures.bind_any last
  · exact Ensures.bind_any last

theorem ensures_sampleTensor (type : ElementType) (shape : List Nat) (samples : List Binary64) :
    Ensures (sampleTensor type shape samples) Tensor.Computed :=
  Ensures.orFault fun _ h => Tensor.computed_of_ofBinary64s? h

theorem Multinomial.ensures_run (m : Multinomial) (chance : Generator) (inputs : Inputs) :
    Ensures (m.run chance inputs) Tensor.Computed := by
  refine Ensures.bind_any fun t => ?_
  split
  · exact Ensures.bind_any fun logits => ensures_sampleTensor _ _ _
  · exact Ensures.error

/-! ## Kernels -/

namespace Kernel

/-- The tensor that a kernel holds. -/
def tensor? : Kernel → Option Tensor
  | constant value => some value
  | _ => none

/-- Whether the tensor that a kernel returns can be stored. -/
def Storable (k : Kernel) : Prop := ∀ t, k.tensor? = some t → t.Storable

/-- A kernel with one output. -/
theorem ensures_single {r : OpResult Tensor} (h : Ensures r Tensor.Storable) :
    Ensures (do return [← r]) fun ts => ∀ t ∈ ts, t.Storable := by
  refine Ensures.bind h fun t ht => Ensures.pure fun s hs => ?_
  rw [List.mem_singleton.1 hs]
  exact ht

/-- The outputs of a kernel can be stored. -/
theorem ensures_run {k : Kernel} (hk : k.Storable) {inputs : Inputs} (h : inputs.Storable)
    (chance : Generator) (outputs : Option Nat) :
    Ensures (k.run chance inputs outputs) fun ts => ∀ t ∈ ts, t.Storable := by
  have computed : ∀ {r : OpResult Tensor}, Ensures r Tensor.Computed →
      Ensures (do return [← r]) fun ts => ∀ t ∈ ts, t.Storable :=
    fun hr => ensures_single (hr.mono fun _ ht => ht.storable)
  have several : ∀ {r : OpResult (List Tensor)}, Ensures r (fun ts => ∀ t ∈ ts, t.Computed) →
      Ensures r fun ts => ∀ t ∈ ts, t.Storable :=
    fun hr => hr.mono fun _ hts t ht => (hts t ht).storable
  cases k with
  | unary f =>
      refine Ensures.bind (h.require 0) fun t ht => ?_
      exact computed (f.ensures_run ht)
  | clip low high => exact computed (ensures_runClip h)
  | binary f =>
      refine Ensures.bind (h.require 0) fun a ha => Ensures.bind (h.require 1) fun b hb => ?_
      exact computed (f.ensures_run ha hb)
  | variadic f => exact ensures_single (f.ensures_run h)
  | select => exact computed (ensures_runWhere inputs)
  | reduce r => exact ensures_single (r.ensures_run h)
  | argSelect a => exact computed a.ensures_run
  | softmax s => exact computed s.ensures_run
  | shape start stop =>
      exact computed (Ensures.bind_any fun t => Ensures.pure (Tensor.computed_vector _))
  | size => exact computed (Ensures.bind_any fun t => Ensures.pure (Tensor.computed_scalar _))
  | reshape allowZero => exact computed (ensures_runReshape allowZero h)
  | flatten axis => exact computed (ensures_runFlatten axis h)
  | squeeze axes => exact computed (ensures_runSqueeze axes h)
  | unsqueeze axes => exact computed (ensures_runUnsqueeze axes h)
  | transpose perm => exact computed (ensures_runTranspose perm inputs)
  | expand => exact computed (ensures_runExpand inputs)
  | nonZero => exact computed (ensures_runNonZero inputs)
  | concat axis => exact computed (ensures_runConcat axis h)
  | tile => exact computed (ensures_runTile inputs)
  | constant value =>
      refine Ensures.ok fun t ht => ?_
      rw [List.mem_singleton.1 ht]
      exact hk value rfl
  | constantOfShape value => exact computed (ensures_runConstantOfShape value inputs)
  | range => exact computed (ensures_runRange inputs)
  | identity => exact ensures_single (h.require 0)
  | dropout training => exact ensures_runDropout training outputs h
  | cast type =>
      refine ensures_single (Ensures.bind (h.require 0) fun t ht => Ensures.orFault fun _ hcast => ?_)
      exact Tensor.storable_of_cast? ht hcast
  | castLike =>
      refine ensures_single (Ensures.bind (h.require 0) fun t ht => Ensures.bind_any fun like => ?_)
      exact Ensures.orFault fun _ hcast => Tensor.storable_of_cast? ht hcast
  | gather axis => exact computed (ensures_runGather axis h)
  | slice s => exact computed (s.ensures_run inputs)
  | split s => exact several (s.ensures_run inputs outputs)
  | matMul => exact computed (ensures_runMatMul inputs)
  | gemm g => exact computed (g.ensures_run inputs)
  | conv c => exact computed (c.ensures_run inputs)
  | batchNormalization b => exact computed (b.ensures_run inputs outputs)
  | maxPool p => exact several (p.ensures_run inputs outputs)
  | averagePool p => exact computed (p.ensures_run inputs)
  | globalAveragePool => exact computed (ensures_runGlobalAveragePool inputs)
  | random r => exact computed (ensures_sampleTensor _ _ _)
  | randomLike r => exact computed (Ensures.bind_any fun t => ensures_sampleTensor _ _ _)
  | bernoulli b =>
      refine computed (Ensures.bind_any fun t => Ensures.bind_any fun probabilities => ?_)
      exact ensures_sampleTensor _ _ _
  | multinomial m => exact computed (m.ensures_run chance inputs)

end Kernel

/-! ## Kernels that are read from nodes -/

namespace Node

variable {n : Node}

/-- A tensor attribute of a storable node can be stored. -/
theorem Storable.of_attribute? (h : n.Storable) {name : String} {v : AttributeValue}
    (hv : n.attribute? name = some v) {t : Tensor} (ht : t ∈ v.tensorList) : t.Storable := by
  obtain ⟨a, ha, rfl⟩ := Option.map_eq_some_iff.1 hv
  exact (h.attributes a (List.mem_of_find?_eq_some ha)).tensors t ht

theorem ensures_read? {α : Type} {name : String} {f : AttributeValue → Except AttributeProblem α}
    {P : α → Prop} (h : ∀ v, n.attribute? name = some v → Ensures (f v) P) :
    Ensures (n.read? name f) fun o => ∀ x, o = some x → P x := by
  unfold read?
  split
  · rename_i v hv
    split
    · rename_i x hx
      refine Ensures.ok ?_
      rintro y ⟨⟩
      exact h v hv x hx
    · exact Ensures.error
  · refine Ensures.ok ?_
    rintro y ⟨⟩

end Node

theorem AttributeValue.ensures_asTensor (v : AttributeValue) :
    Ensures v.asTensor fun t => t ∈ v.tensorList := by
  cases v with
  | tensor t =>
      unfold asTensor
      dsimp only
      split
      · exact Ensures.ok (List.mem_singleton_self t)
      · exact Ensures.error
  | _ => exact Ensures.error

namespace Operator

theorem ensures_readConstant {n : Node} (h : n.Storable) :
    Ensures (readConstant n) Kernel.Storable := by
  have constant : ∀ t : Tensor, t.Storable → (Kernel.constant t).Storable := by
    rintro t ht _ ⟨⟩
    exact ht
  refine Ensures.bind (Node.ensures_read? (P := Tensor.Storable) fun v hv =>
    v.ensures_asTensor.mono fun t ht => h.of_attribute? hv ht) fun value hvalue => ?_
  split
  · exact Ensures.pure (constant _ (hvalue _ rfl))
  · refine Ensures.bind_any fun number => ?_
    split
    · exact Ensures.pure (constant _ (Tensor.computed_scalar _).storable)
    · refine Ensures.bind_any fun numbers => ?_
      split
      · exact Ensures.pure (constant _ (Tensor.computed_vector _).storable)
      · refine Ensures.bind_any fun integer => ?_
        split
        · exact Ensures.pure (constant _ (Tensor.computed_scalar _).storable)
        · refine Ensures.bind_any fun integers => ?_
          split
          · exact Ensures.pure (constant _ (Tensor.computed_vector _).storable)
          · exact Ensures.error

/-- The tensors of a kernel that was read can be stored. -/
theorem ensures_readKernel? {version : Option Int64} {n : Node} (h : n.Storable)
    {r : ReadResult Kernel} (hr : readKernel? version n = some r) :
    Ensures r Kernel.Storable := by
  have plain : ∀ {k : Kernel}, k.tensor? = none → k.Storable := by
    intro k hk t ht
    rw [hk] at ht
    cases ht
  unfold readKernel? at hr
  split at hr <;> cases hr
  all_goals first
    | exact Ensures.ok (plain rfl)
    | exact ensures_readConstant h
    | exact Ensures.map fun x _ => plain rfl
    | repeat first
        | exact Ensures.pure (plain rfl)
        | exact Ensures.error
        | refine Ensures.bind_any fun _ => ?_
        | split
        | unfold readDropout

/-! ## Operators -/

theorem graph?_of_readRequired {n : Node} {name : String} {g : Graph}
    (h : n.readRequired name AttributeValue.asGraph = .ok g) : n.graph? name = some g := by
  unfold Node.readRequired Node.read? at h
  unfold Node.graph?
  cases hv : n.attribute? name with
  | none => simp [hv, bind, Except.bind] at h
  | some v =>
      cases hg : v.asGraph with
      | error e => simp [hv, hg, bind, Except.bind] at h
      | ok g' =>
          rw [asGraph_eq hg]
          simp only [hv, hg, bind, Except.bind, pure, Except.pure, Except.ok.injEq] at h
          rw [h]

variable {version : Option Int64} {n : Node}

/-- Where the operator of a node comes from. -/
theorem ofNode_cases {operator : Operator} (h : ofNode version n = .ok operator) :
    n.isDefaultDomain = true ∧
      ((∃ a b, operator = .branch a b ∧ n.graph? "then_branch" = some a ∧
        n.graph? "else_branch" = some b) ∨
      (∃ body, operator = .loop body ∧ n.graph? "body" = some body) ∨
      ∃ k, operator = .kernel k ∧ n.opType ≠ "If" ∧ n.opType ≠ "Loop" ∧
        readKernel? version n = some (.ok k)) := by
  unfold ofNode at h
  split at h
  · rename_i hdomain
    refine ⟨hdomain, ?_⟩
    split at h
    · unfold readBranch at h
      cases ht : n.readRequired "then_branch" AttributeValue.asGraph with
      | error e => simp [ht, bind, Except.bind] at h
      | ok a =>
          cases he : n.readRequired "else_branch" AttributeValue.asGraph with
          | error e => simp [ht, he, bind, Except.bind] at h
          | ok b =>
              simp only [ht, he, bind, Except.bind, pure, Except.pure, Except.ok.injEq] at h
              exact Or.inl ⟨a, b, h.symm, graph?_of_readRequired ht, graph?_of_readRequired he⟩
    · rename_i hif
      split at h
      · cases hb : n.readRequired "body" AttributeValue.asGraph with
        | error e => simp [hb, Functor.map, Except.map] at h
        | ok body =>
            simp only [hb, Functor.map, Except.map, Except.ok.injEq] at h
            exact Or.inr (Or.inl ⟨body, h.symm, graph?_of_readRequired hb⟩)
      · rename_i hloop
        split at h
        · rename_i r hr
          cases r with
          | error e => cases h
          | ok k =>
              cases h
              exact Or.inr (Or.inr ⟨k, rfl, hif, hloop, hr⟩)
        · cases h
  · cases h

theorem ofNode_kernel {k : Kernel} (h : ofNode version n = .ok (.kernel k)) :
    n.opType ≠ "If" ∧ n.opType ≠ "Loop" ∧ readKernel? version n = some (.ok k) := by
  obtain ⟨-, ⟨a, b, ⟨⟩, -⟩ | ⟨body, ⟨⟩, -⟩ | ⟨k, ⟨⟩, h⟩⟩ := ofNode_cases h
  exact h

theorem ofNode_branch {a b : Graph} (h : ofNode version n = .ok (.branch a b)) :
    n.graph? "then_branch" = some a ∧ n.graph? "else_branch" = some b := by
  obtain ⟨-, ⟨a, b, ⟨⟩, h⟩ | ⟨body, ⟨⟩, -⟩ | ⟨k, ⟨⟩, -⟩⟩ := ofNode_cases h
  exact h

theorem ofNode_loop {body : Graph} (h : ofNode version n = .ok (.loop body)) :
    n.graph? "body" = some body := by
  obtain ⟨-, ⟨a, b, ⟨⟩, -⟩ | ⟨body, ⟨⟩, h⟩ | ⟨k, ⟨⟩, -⟩⟩ := ofNode_cases h
  exact h

theorem storable_of_ofNode {k : Kernel} (h : n.Storable)
    (hk : ofNode version n = .ok (.kernel k)) : k.Storable :=
  ensures_readKernel? h (ofNode_kernel hk).2.2 k rfl

end Operator

theorem Node.mem_subgraphs_of_graph? {n : Node} {name : String} {g : Graph}
    (h : n.graph? name = some g) : (name, g) ∈ n.subgraphs := by
  unfold graph? attribute? at h
  cases hf : n.attributes.find? fun a => a.name == name with
  | none => simp [hf] at h
  | some a =>
      have ha := List.mem_of_find?_eq_some hf
      have hname : a.name = name := by simpa using List.find?_some hf
      simp only [hf, Option.map_some] at h
      cases hv : a.value <;> rw [hv] at h <;> cases h
      rw [subgraphs, List.mem_flatMap]
      refine ⟨a, ha, ?_⟩
      rw [hv, hname]
      exact List.mem_singleton_self _

end TensorGraph
