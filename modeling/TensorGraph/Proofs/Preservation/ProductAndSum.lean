import Mathlib
import TensorGraph.Proofs.Operator.MatrixProduct
import TensorGraph.Proofs.Preservation.Fuse

/-!
# Products and sums as one node

Input:

* a node that adds a constant to the product of a matrix and a constant, in either order, for which a
  rule proposes one node with a scaled product;
* values of a run of which the view of the rule is true, so that the product holds in them.

Algorithm:

* what is known of types and shapes says that the factors are matrices of single-precision numbers, and
  that the constant does not enlarge the product;
* the scaled product has factors of one, so it adds the constant to the product, in this order.

Main result:

* `View.fuseProductAndSum_sound`: whenever the sum yields a tensor, the node that takes its place yields
  one that is equal, but for which NaN it has where the constant is the first operand.
-/

namespace TensorGraph

variable {v : View} {n : Node} {change : Change}

namespace View

/-- What a sum yields whose operands are matched in either order. -/
theorem exists_summands {V : Scope Tensor} {ts : List Tensor} {chance : Generator}
    {version : Option Int64} {m z : String} (hop : n.isOperator "Add" = true)
    (hops : Pattern.operands n = [m, z] ∨ Pattern.operands n = [z, m])
    (yields : n.Yields version chance V ts) :
    z ≠ "" ∧ ∃ s c u, V.get? m = some s ∧ V.get? z = some c ∧ ts = [u] ∧
      (BinaryFunction.add.run s c = .ok u ∨ BinaryFunction.add.run c s = .ok u) ∧
      (Pattern.operands n = [m, z] → BinaryFunction.add.run s c = .ok u) := by
  obtain ⟨_, x, t, y, s, u, -, hx, ht, hy, hs, hu, rfl⟩ :=
    (Node.yields_binary_iff (f := .add) hop rfl).1 yields
  rcases hops with hops | hops
  · obtain rfl := Node.eq_of_operands hops hx
    cases hy.symm.trans (Node.input?_of_operands hops).2
    exact ⟨(Node.input?_eq_some_iff.1 hy).2, t, s, u, ht, hs, rfl, .inl hu, fun _ => hu⟩
  · obtain rfl := Node.eq_of_operands hops hx
    cases hy.symm.trans (Node.input?_of_operands hops).2
    refine ⟨(Node.input?_eq_some_iff.1 hx).2, s, t, u, hs, ht, rfl, .inr hu, fun order => ?_⟩
    cases hops.symm.trans order
    cases hs.symm.trans ht
    exact hu

/-- What a product yields whose operands are matched. -/
theorem exists_factors {V : Scope Tensor} {chance : Generator} {version : Option Int64} {m : Node}
    {x y z : String} (hop : m.isOperator "MatMul" = true) (hops : Pattern.operands m = [x, y])
    (hz : z ∈ m.presentOutputs) (holds : m.Holds version chance V) :
    ∃ a b p s, x ≠ "" ∧ y ≠ "" ∧ V.get? x = some a ∧ V.get? y = some b ∧ V.get? z = some s ∧
      runMatMul [some a, some b] = .ok p ∧ p.Alike s := by
  obtain ⟨p, s, inside, hs, alike⟩ := holds.exists_output hz fun ts hts => by
    obtain ⟨_, _, _, _, _, u, -, -, -, -, -, -, rfl⟩ := (Node.yields_matMul_iff hop).1 hts
    exact ⟨u, rfl⟩
  obtain ⟨_, x', a, y', b, p', -, hx, ha, hy, hb, hp, heq⟩ := (Node.yields_matMul_iff hop).1 inside
  cases heq
  cases Node.eq_of_operands hops hx
  cases hy.symm.trans (Node.input?_of_operands hops).2
  exact ⟨a, b, p, s, (Node.input?_eq_some_iff.1 hx).2, (Node.input?_eq_some_iff.1 hy).2, ha, hb, hs,
    hp, alike⟩

/-- The node that takes the place of a product and a sum yields the sum, from the operands of both. -/
theorem fuseProductAndSum_sound {outer : List String} (valid : v.graph.validate outer = .ok ())
    (hn : n ∈ v.graph.nodes) (h : v.fuseProductAndSum n = some change) :
    ∃ i product gemm output m x y z, v.producer? m = some (i, product) ∧
      product.isOperator "MatMul" = true ∧ Pattern.operands product = [x, y] ∧
      (Pattern.operands n = [m, z] ∨ Pattern.operands n = [z, m]) ∧
      change = .replace [gemm] [] ∧ gemm.isOperator "Gemm" = true ∧ gemm.inputs = [x, y, z] ∧
      gemm.outputs = [output] ∧ n.outputs.head? = some output ∧
      ∀ (chance : Generator) (V : Scope Tensor) (ts : List Tensor), v.TrueOf V →
        (∀ q t, V.get? q = some t → t.Counted) → product.Holds v.version chance V →
        n.Yields v.version chance V ts →
        ∃ a b c p u w, V.get? x = some a ∧ V.get? y = some b ∧ V.get? z = some c ∧
          runMatMul [some a, some b] = .ok p ∧ BinaryFunction.add.run p c = .ok w ∧
          ts = [u] ∧ gemm.Yields v.version chance V [w] ∧ w.elementType = u.elementType ∧
          u.EqualUpToNaN w ∧ (Pattern.operands n = [m, z] → u = w) := by
  obtain ⟨output, found, j, product, x, y, z, cb, cc, rows, inner, depth, columns, hop, hout, hm, hj,
    hproduct, hx, hy, hz, hcb, hcc, hdims, hshape, type, -, typeC, fits, rfl⟩ :=
    fuseProductAndSum_eq_some h
  obtain ⟨k, n', m, z', i, product', x', y', hprod, -, hops, hprod', hop', hops', key, hx', hy', hz'⟩ :=
    Pattern.matches?_productAndSum hm
  cases hx.symm.trans hx'
  cases hy.symm.trans hy'
  cases hz.symm.trans hz'
  cases hj.symm.trans key
  cases hproduct.symm.trans (mem_of_producer? hprod').1
  have same : n' = n := by
    refine eq_of_producer? valid hn (Node.mem_presentOutputs.2 ⟨List.mem_of_head? hout, ?_⟩) hprod
    exact (Node.mem_presentOutputs.1 (mem_of_producer? hprod).2).2
  subst same
  refine ⟨j, product, _, output, m, x, y, z, hprod', hop', hops', hops, rfl, rfl, rfl, rfl, hout, ?_⟩
  intro chance V ts trueOf counted holds yields
  obtain ⟨hzne, s, c, u, hs, hc, rfl, hu, direct⟩ := exists_summands hop hops yields
  -- The value of the first operand is what the product yields.
  obtain ⟨a, b, p, s', hxne, hyne, ha, hb, hs', hp, alike⟩ :=
    exists_factors hop' hops' (mem_of_producer? hprod').2 holds
  cases hs.symm.trans hs'
  -- What the rule has seen is true of the values.
  have typeA := trueOf.elementType_eq type ha
  have alikeC := trueOf.constants z cc c hcc hc
  replace typeC : c.elementType = .float32 := (Tensor.Likeness.elementType alikeC).symm.trans typeC
  have shapeB := (trueOf.constants y cb b hcb hb).shape.symm.trans hshape
  obtain ⟨σ, shapeA⟩ := trueOf.exists_allHold hdims ha
  obtain ⟨r, d, heq, hr⟩ := Dim.exists_of_allHold_pair shapeA
  replace fits : broadcastShapes c.shape [r, columns] = some [r, columns] :=
    alikeC.shape ▸ broadcastShapes_of_broadcastsToMatrix fits hr
  have stored : BinaryFunction.add.run p c = BinaryFunction.add.run s c ∧
      BinaryFunction.add.run c p = BinaryFunction.add.run c s :=
    ⟨Tensor.Likeness.apply_eq alike (BinaryFunction.add.run · c) fun _ _ _ _ => rfl,
      Tensor.Likeness.apply_eq alike (BinaryFunction.add.run c) fun _ _ _ _ => rfl⟩
  rw [← stored.1] at hu direct
  rw [← stored.2] at hu
  obtain ⟨w, fused, sum, same⟩ := Gemm.exists_run_default heq shapeB typeA typeC (counted z c hc)
    fits hp hu
  refine ⟨a, b, c, p, u, w, ha, hb, hc, hp, sum, rfl, ?_, same.elementType.symm, same, ?_⟩
  · exact (Node.yields_gemm_iff rfl rfl).2
      ⟨_, w, Node.arguments_triple rfl hxne hyne hzne ha hb hc, fused, rfl⟩
  · intro order
    exact Except.ok.inj ((direct order).symm.trans sum)

def rowProduct : Node where
  opType := "MatMul"
  inputs := ["x", "b"]
  outputs := ["p"]

def constantSum : Node where
  opType := "Add"
  inputs := ["c", "p"]
  outputs := ["y"]

/-- A row of unknown length is multiplied by a matrix, and added to a constant. -/
def addedToConstant : View where
  version := none
  graph :=
    { nodes := [rowProduct, constantSum]
      inputs := [{ name := "x" }]
      initializers := [⟨"b", .ofArray [1, 2] #[Binary32.one, ⟨0x7fc00001⟩]⟩,
        ⟨"c", .ofArray [2] #[Binary32.one, ⟨0x7fc00002⟩]⟩]
      outputs := [{ name := "y" }] }
  facts := [("x", { type := some .float32, shape := some [.named "n", .fixed 1] })]
  surroundings := {}

/-- The values of a run.  The last element of the product is a NaN, and so is the one that it is added
to. -/
def addedToConstantValues : Scope Tensor :=
  [("x", .ofArray [1, 1] #[Binary32.one]), ("b", .ofArray [1, 2] #[Binary32.one, ⟨0x7fc00001⟩]),
    ("c", .ofArray [2] #[Binary32.one, ⟨0x7fc00002⟩]),
    ("p", .ofArray [1, 2] #[Binary32.one, ⟨0x7fc00001⟩])]

theorem addedToConstant_trueOf : addedToConstant.TrueOf addedToConstantValues := by
  constructor
  · refine ⟨fun _ => 1, fun z f t hf ht => ?_⟩
    have mem : (z, f) ∈ addedToConstant.facts := Scope.mem_of_get?_eq_some hf
    cases List.mem_singleton.1 mem
    cases ht
    exact ⟨by rintro _ ⟨⟩; rfl, by rintro _ ⟨⟩; exact ⟨rfl, rfl, trivial⟩, by rintro _ ⟨⟩⟩
  · refine fun z c t => alike_of_constant? rfl fun i hi t ht => ?_
    simp only [addedToConstant, List.mem_cons, List.not_mem_nil, or_false] at hi
    rcases hi with rfl | rfl <;> cases ht <;> rfl

/-- The sum and the node that takes its place have different NaNs, and are equal otherwise. -/
theorem fuseProductAndSum_addedToConstant : ∃ (gemm : Node) (u w : Tensor),
    addedToConstant.fuseProductAndSum constantSum = some (.replace [gemm] []) ∧
    gemm.Yields none ⟨0⟩ addedToConstantValues [w] ∧ u.EqualUpToNaN w ∧
    u.elements = .float32 #[⟨0x40000000⟩, ⟨0x7fc00002⟩] := by
  have fused : addedToConstant.fuseProductAndSum constantSum =
      some (.replace [{ opType := "Gemm", inputs := ["x", "b", "c"], outputs := ["y"] }] []) := by
    cbv
  have valid : addedToConstant.graph.validate [] = .ok () := by cbv
  obtain ⟨i, product, gemm, output, m, x, y, z, hprod, -, -, hops, hchange, -, -, -, -, sound⟩ :=
    fuseProductAndSum_sound valid (by simp [addedToConstant]) fused
  cases hchange
  have counted : ∀ q t, addedToConstantValues.get? q = some t → t.Counted := by
    intro q t ht
    have mem : (q, t) ∈ addedToConstantValues := Scope.mem_of_get?_eq_some ht
    simp only [addedToConstantValues, List.mem_cons, Prod.mk.injEq, List.not_mem_nil,
      or_false] at mem
    rcases mem with ⟨-, rfl⟩ | ⟨-, rfl⟩ | ⟨-, rfl⟩ | ⟨-, rfl⟩ <;> exact fun _ => rfl
  -- The constant has no producer.
  have operand : m = "p" := by
    have given : Pattern.operands constantSum = ["c", "p"] := by decide
    rw [given] at hops
    rcases hops with hops | hops <;> cases hops
    · cases hprod
    · rfl
  subst operand
  cases hprod
  have holds : rowProduct.Holds none ⟨0⟩ addedToConstantValues :=
    Node.holds_single rfl ((Node.yields_matMul_iff rfl).2
      ⟨_, "x", _, "b", _, _, rfl, rfl, rfl, rfl, rfl, by decide +kernel, rfl⟩) rfl
  have yields : constantSum.Yields none ⟨0⟩ addedToConstantValues
      [.ofArray [1, 2] #[⟨0x40000000⟩, (⟨0x7fc00002⟩ : Binary32)]] :=
    (Node.yields_binary_iff (f := .add) rfl rfl).2
      ⟨_, "c", _, "p", _, _, rfl, rfl, rfl, rfl, rfl, by decide +kernel, rfl⟩
  obtain ⟨a, b, c, p, u, w, -, -, -, -, -, hu, gemm, -, same, -⟩ :=
    sound ⟨0⟩ addedToConstantValues _ addedToConstant_trueOf counted holds yields
  cases hu
  exact ⟨_, _, w, fused, gemm, same, rfl⟩

end View
end TensorGraph
