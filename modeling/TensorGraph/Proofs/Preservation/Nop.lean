import Mathlib
import TensorGraph.Proofs.Preservation.Fuse
import TensorGraph.Simplification.Sweep

/-!
# Nodes that change nothing

Input:

* a node for which a rule proposes to read one of its inputs instead of its output, in a view that is
  true of a run.

Algorithm:

* casts, reshapes, transpositions and broadcasts are left out when what is known of types and shapes
  says that they give their input back;
* sums, differences, products and quotients are left out when one operand is a constant that is
  neutral, and the result has the shape of the other operand.

Main result:

* `View.eliminateNop_sound`: whenever the node runs, its output has the type, the shape and the elements
  of the value that takes its place.  Floating-point results of arithmetic are the same numbers.
-/

namespace TensorGraph

variable {v : View} {n : Node} {change : Change} {x y : String}

/-! ## Same numbers -/

theorem SameNumber.refl {α : Type} [Arith α] (x : α) : SameNumber x x := by
  cases h : Arith.eq x x with
  | true => exact .inl h
  | false => exact .inr ⟨h, h⟩

namespace Tensor

variable {a b c : Tensor}

theorem Alike.sameNumbers (h : a.Alike b) : a.SameNumbers b := by
  refine ⟨h.shape, ?_⟩
  rw [h.elements]
  cases b.elements with
  | float32 xs => exact List.forall₂_same.2 fun x _ => .refl x
  | float64 xs => exact List.forall₂_same.2 fun x _ => .refl x
  | _ => exact rfl

theorem SameNumbers.of_alike (h : a.SameNumbers c) (h' : a.Alike b) : b.SameNumbers c :=
  ⟨h'.shape ▸ h.shape, h'.elements ▸ h.elements⟩

theorem SameNumbers.elementType (h : a.SameNumbers b) : a.elementType = b.elementType := by
  obtain ⟨-, h⟩ := h
  unfold Tensor.elementType
  generalize a.elements = xs at h
  generalize b.elements = ys at h
  cases xs <;> cases ys <;> first | rfl | cases h
  rfl

end Tensor

namespace View

/-! ## Values that take the place of outputs -/

/-- Whether a value stands for the output of a node, in each run of which the view is true. -/
def StandsFor (v : View) (n : Node) (R : Tensor → Tensor → Prop) (y x : String) : Prop :=
  ∀ (chance : Generator) (V : Scope Tensor), v.TrueOf V →
    (∀ z t, V.get? z = some t → t.Counted) → n.Holds v.version chance V →
    ∃ t u, V.get? x = some t ∧ V.get? y = some u ∧ R u t

theorem StandsFor.mono {R R' : Tensor → Tensor → Prop} (h : v.StandsFor n R y x)
    (weaker : ∀ u t, R u t → R' u t) : v.StandsFor n R' y x := by
  intro chance V trueOf counted holds
  obtain ⟨t, u, ht, hu, related⟩ := h chance V trueOf counted holds
  exact ⟨t, u, ht, hu, weaker u t related⟩

/-- A value stands for the output of a node that yields one tensor, if that one is related to it. -/
theorem standsFor_of_yields {R : Tensor → Tensor → Prop} (hy : n.firstOutput? = some y)
    (alike : ∀ a b c, R a c → a.Alike b → R b c)
    (related : ∀ (chance : Generator) (V : Scope Tensor) (ts : List Tensor), v.TrueOf V →
      (∀ z t, V.get? z = some t → t.Counted) → n.Yields v.version chance V ts →
      ∃ t u, V.get? x = some t ∧ ts = [u] ∧
        ∀ s, V.get? y = some s → u.Alike s → R u t) :
    v.StandsFor n R y x := by
  intro chance V trueOf counted holds
  obtain ⟨u, s, yields, hs, same⟩ :=
    holds.exists_output (Node.mem_presentOutputs_of_firstOutput? hy) fun ts hts => by
      obtain ⟨t, u, -, rfl, -⟩ := related chance V ts trueOf counted hts
      exact ⟨u, rfl⟩
  obtain ⟨t, u', ht, heq, h⟩ := related chance V [u] trueOf counted yields
  cases heq
  exact ⟨t, s, ht, hs, alike u s t (h s hs same) same⟩

theorem alike_trans (a b c : Tensor) (h : a.Alike c) (h' : a.Alike b) : b.Alike c :=
  h'.symm.trans h

/-! ## Changes of type, shape and order -/

/-- A cast to the type that the input has gives the input. -/
theorem eliminateNopCast_sound (h : v.eliminateNopCast n = some change) :
    ∃ y x, n.firstOutput? = some y ∧ n.input? 0 = some x ∧ change = .forward [(y, x)] ∧
      v.StandsFor n Tensor.Alike y x := by
  obtain ⟨x, type, hx, htype, htarget, forwards⟩ := eliminateNopCast_eq_some h
  obtain ⟨y, hy, rfl⟩ := Node.forwardTo_eq_some_iff.1 forwards
  refine ⟨y, x, hy, hx, rfl, standsFor_of_yields hy alike_trans ?_⟩
  intro chance V ts trueOf _ yields
  have unchanged : ∀ {t u : Tensor}, V.get? x = some t → castTensor t type = .ok u → u = t := by
    intro t u ht hu
    rw [castTensor, orFault_eq_ok_iff, Tensor.cast?, if_pos (trueOf.elementType_eq htype ht)] at hu
    exact (Option.some.inj hu).symm
  rcases castTarget?_eq_some htarget with ⟨hop, code, hattr, hcode⟩ | ⟨hop, z, hz, hztype⟩
  · obtain ⟨type', _, x', t, u, hread, _, hx', ht, hu, rfl⟩ := (Node.yields_cast_iff hop).1 yields
    cases hx.symm.trans hx'
    have given : type' = type := by
      unfold Node.readRequired Node.read? at hread
      simp only [hattr, AttributeValue.asType, hcode] at hread
      cases hread
      rfl
    subst given
    exact ⟨t, u, ht, rfl, fun _ _ _ => unchanged ht hu ▸ .refl _⟩
  · obtain ⟨_, x', t, z', s, u, _, hx', ht, hz', hs, hu, rfl⟩ :=
      (Node.yields_castLike_iff hop).1 yields
    cases hx.symm.trans hx'
    cases hz.symm.trans hz'
    rw [trueOf.elementType_eq hztype hs] at hu
    exact ⟨t, u, ht, rfl, fun _ _ _ => unchanged ht hu ▸ .refl _⟩

/-- A reshape to the shape of the input gives the input. -/
theorem eliminateNopReshape_sound (h : v.eliminateSameShape "Reshape" n = some change) :
    ∃ y x, n.firstOutput? = some y ∧ n.input? 0 = some x ∧ change = .forward [(y, x)] ∧
      v.StandsFor n Tensor.Alike y x := by
  obtain ⟨x, y, dims, hop, hx, hout, hdims, hdims', forwards⟩ := eliminateSameShape_eq_some h
  obtain ⟨y', hy, rfl⟩ := Node.forwardTo_eq_some_iff.1 forwards
  cases hout.symm.trans (Node.head?_of_firstOutput? hy)
  refine ⟨y, x, hy, hx, rfl, standsFor_of_yields hy alike_trans ?_⟩
  intro chance V ts trueOf _ yields
  obtain ⟨_, _, x', t, _, u, -, -, hx', ht, -, hu, rfl⟩ := (Node.yields_reshape_iff hop).1 yields
  cases hx.symm.trans hx'
  refine ⟨t, u, ht, rfl, fun s hs same => ?_⟩
  have shape := (trueOf.shape_eq hdims hdims' ht hs).trans same.shape.symm
  unfold reshapeBy at hu
  obtain ⟨target, -, hu⟩ := bind_eq_ok_iff.1 hu
  obtain ⟨-, evaluable, rfl⟩ := reshapeTo_eq_ok_iff.1 hu
  exact .of_evaluable shape.symm rfl evaluable

/-- A broadcast to the shape of the input gives the input. -/
theorem eliminateNopExpand_sound (h : v.eliminateSameShape "Expand" n = some change) :
    ∃ y x, n.firstOutput? = some y ∧ n.input? 0 = some x ∧ change = .forward [(y, x)] ∧
      v.StandsFor n Tensor.Alike y x := by
  obtain ⟨x, y, dims, hop, hx, hout, hdims, hdims', forwards⟩ := eliminateSameShape_eq_some h
  obtain ⟨y', hy, rfl⟩ := Node.forwardTo_eq_some_iff.1 forwards
  cases hout.symm.trans (Node.head?_of_firstOutput? hy)
  refine ⟨y, x, hy, hx, rfl, standsFor_of_yields hy alike_trans ?_⟩
  intro chance V ts trueOf counted yields
  obtain ⟨_, x', t, _, _, out, u, -, hx', ht, -, -, -, hu, rfl⟩ :=
    (Node.yields_expand_iff hop).1 yields
  cases hx.symm.trans hx'
  refine ⟨t, u, ht, rfl, fun s hs same => ?_⟩
  have shape := (trueOf.shape_eq hdims hdims' ht hs).trans same.shape.symm
  obtain rfl : out = t.shape := (shape_of_takeTensor hu).symm.trans shape.symm
  exact alike_of_takeTensor (counted x t ht) hu fun _ => takeAt_broadcastOffsets_self

/-- A transposition that keeps the order of the dimensions gives the input. -/
theorem eliminateNopTranspose_sound (h : v.eliminateNopTranspose n = some change) :
    ∃ y x, n.firstOutput? = some y ∧ n.input? 0 = some x ∧ change = .forward [(y, x)] ∧
      v.StandsFor n Tensor.Alike y x := by
  obtain ⟨x, perm, hop, hx, hperm, range, forwards⟩ := eliminateNopTranspose_eq_some h
  obtain ⟨y, hy, rfl⟩ := Node.forwardTo_eq_some_iff.1 forwards
  refine ⟨y, x, hy, hx, rfl, standsFor_of_yields hy alike_trans ?_⟩
  intro chance V ts trueOf counted yields
  obtain ⟨x', t, u, hx', ht, ⟨order, hu⟩, rfl⟩ := trueOf.transposes hop hperm ts yields
  cases hx.symm.trans hx'
  refine ⟨t, u, ht, rfl, fun _ _ _ => transposeBy_range (counted x t ht) ?_⟩
  have rank : perm.length = t.rank := by simpa using order.length_eq
  rwa [range, rank] at hu

/-! ## Arithmetic -/

/-- The patterns of neutral operands are those of the functions that have a neutral number. -/
theorem exists_of_mem_neutralPatterns {p : Pattern} (h : p ∈ neutralPatterns) :
    ∃ (f : BinaryFunction) (number : Binary64), f.neutral? = some number ∧
      p = .binary f.name (.any "x") (.number number) := by
  simp only [neutralPatterns, List.mem_cons, List.not_mem_nil, or_false] at h
  rcases h with rfl | rfl | rfl | rfl
  · exact ⟨.add, _, rfl, rfl⟩
  · exact ⟨.sub, _, rfl, rfl⟩
  · exact ⟨.mul, _, rfl, rfl⟩
  · exact ⟨.div, _, rfl, rfl⟩

/-- The value of a constant that fills a pattern is filled with its number. -/
theorem isFilledWith_of_fills {V : Scope Tensor} {number : Binary64} {t : Tensor}
    (trueOf : v.TrueOf V) (h : Pattern.Fills v.computations number x) (ht : V.get? x = some t) :
    t.isFilledWith number = true := by
  obtain ⟨c, hc, filled⟩ := h
  rwa [← Tensor.Likeness.apply_eq (trueOf.constants x c t hc ht) (Tensor.isFilledWith · number)
    fun _ _ _ _ => rfl]

/-- Arithmetic with a neutral constant, whose result has the shape of the other operand, gives the
numbers of that operand. -/
theorem eliminateNopArithmetic_sound {outer : List String}
    (valid : v.graph.validate outer = .ok ()) (hn : n ∈ v.graph.nodes)
    (h : v.eliminateNopArithmetic n = some change) :
    ∃ y x, n.firstOutput? = some y ∧ x ∈ n.inputs ∧ change = .forward [(y, x)] ∧
      v.StandsFor n Tensor.SameNumbers y x := by
  obtain ⟨output, p, found, x, type, dims, -, -, hout, hp, hm, hx, -, -, hdims, hdims', forwards⟩ :=
    eliminateNopArithmetic_eq_some h
  obtain ⟨y, hy, rfl⟩ := Node.forwardTo_eq_some_iff.1 forwards
  cases hout.symm.trans (Node.head?_of_firstOutput? hy)
  obtain ⟨f, number, neutral, rfl⟩ := exists_of_mem_neutralPatterns hp
  obtain ⟨i, m, hprod, hop, hdomain, a, b, hops, operand⟩ := Pattern.matches?_binary_any hm hx
  obtain rfl := eq_of_producer? valid hn (Node.mem_presentOutputs_of_firstOutput? hy) hprod
  have mem : x ∈ m.inputs := by
    apply Pattern.mem_inputs_of_mem_operands
    rw [hops]
    rcases operand with ⟨rfl, -⟩ | ⟨rfl, -⟩ <;> simp
  refine ⟨output, x, hy, mem, rfl, standsFor_of_yields hy (fun _ _ _ => .of_alike) ?_⟩
  intro chance V ts trueOf counted yields
  obtain ⟨_, a', t, b', s, u, -, ha, ht, hb, hs, hu, rfl⟩ :=
    (Node.yields_binary_iff (Node.isOperator_iff.2 ⟨hop, hdomain⟩) neutral).1 yields
  have shape : ∀ {w z : Tensor}, V.get? x = some w → V.get? output = some z → u.Alike z →
      u.shape = w.shape := fun hw hz same =>
    same.shape.trans (trueOf.shape_eq hdims hdims' hw hz).symm
  obtain rfl := Node.eq_of_operands hops ha
  cases hb.symm.trans (Node.input?_of_operands hops).2
  rcases operand with ⟨rfl, fills, -⟩ | ⟨rfl, fills, exchange⟩
  · exact ⟨t, u, ht, rfl, fun z hz same => BinaryFunction.sameNumbers_right neutral
      (counted _ t ht) (counted _ s hs) (isFilledWith_of_fills trueOf fills hs) hu
      (shape ht hz same)⟩
  · have commutes := BinaryFunction.eq_of_isCommutative neutral exchange
    exact ⟨s, u, hs, rfl, fun z hz same => BinaryFunction.sameNumbers_left neutral commutes
      (counted _ t ht) (counted _ s hs) (isFilledWith_of_fills trueOf fills ht) hu
      (shape hs hz same)⟩

/-! ## All rules of this kind -/

/-- Rules that leave out nodes that change nothing. -/
def nopRules : List Rule :=
  [.eliminateNopCast, .eliminateNopReshape, .eliminateNopTranspose, .eliminateNopExpand,
    .eliminateNopArithmetic]

/-- When a rule lets one of the inputs of a node take the place of its output, the output has the type,
the shape and the elements of that input whenever the node runs.  The elements of floating-point results
of arithmetic are the same numbers. -/
theorem eliminateNop_sound {outer : List String} {rule : Rule} {taken : List String} {index : Nat}
    (valid : v.graph.validate outer = .ok ()) (hn : n ∈ v.graph.nodes) (hrule : rule ∈ nopRules)
    (h : (rule.propose v taken index n).2 = some change) :
    ∃ y x, n.firstOutput? = some y ∧ x ∈ n.inputs ∧ change = .forward [(y, x)] ∧
      ∀ (chance : Generator) (V : Scope Tensor), v.TrueOf V →
        (∀ z t, V.get? z = some t → t.Counted) → n.Holds v.version chance V →
        ∃ t u, V.get? x = some t ∧ V.get? y = some u ∧ u.elementType = t.elementType ∧
          u.SameNumbers t ∧ (rule ≠ .eliminateNopArithmetic → u.Alike t) := by
  -- What is alike holds the same numbers too.
  have exact : (∃ y x, n.firstOutput? = some y ∧ n.input? 0 = some x ∧
      change = .forward [(y, x)] ∧ v.StandsFor n Tensor.Alike y x) →
      ∃ y x, n.firstOutput? = some y ∧ x ∈ n.inputs ∧ change = .forward [(y, x)] ∧
        v.StandsFor n (fun u t => u.elementType = t.elementType ∧ u.SameNumbers t ∧
          (rule ≠ .eliminateNopArithmetic → u.Alike t)) y x := by
    rintro ⟨y, x, hy, hx, hchange, stands⟩
    refine ⟨y, x, hy, List.mem_of_getElem? (Node.input?_eq_some_iff.1 hx).1, hchange, ?_⟩
    exact stands.mono fun u t alike =>
      ⟨Tensor.Likeness.elementType alike, alike.sameNumbers, fun _ => alike⟩
  simp only [nopRules, List.mem_cons, List.not_mem_nil, or_false] at hrule
  rcases hrule with rfl | rfl | rfl | rfl | rfl
  · exact exact (eliminateNopCast_sound h)
  · exact exact (eliminateNopReshape_sound h)
  · exact exact (eliminateNopTranspose_sound h)
  · exact exact (eliminateNopExpand_sound h)
  · obtain ⟨y, x, hy, hx, hchange, stands⟩ := eliminateNopArithmetic_sound valid hn h
    refine ⟨y, x, hy, hx, hchange, stands.mono fun u t same => ?_⟩
    exact ⟨same.elementType, same, fun other => absurd rfl other⟩

/-- A view of a graph that adds a zero to a value with a row of unknown length. -/
def zeroAdded : View where
  version := none
  graph :=
    { nodes := [{ opType := "Add", inputs := ["c", "x"], outputs := ["y"] }]
      inputs := [{ name := "x" }]
      initializers := [⟨"c", .ofArray [1] #[Binary32.zero]⟩]
      outputs := [{ name := "y" }] }
  facts := ["x", "y"].map fun name =>
    (name, { type := some .float32, shape := some [.fixed 2, .named "n"] })
  surroundings := {}

/-- The values of a run: one element is a zero with the other sign, the other one is a NaN that is made
quiet. -/
def zeroAddedValues : Scope Tensor :=
  [("c", .ofArray [1] #[Binary32.zero]), ("x", .ofArray [2, 1] #[Binary32.zero.neg, ⟨0x7f800001⟩]),
    ("y", .ofArray [2, 1] #[Binary32.zero, ⟨0x7fc00001⟩])]

theorem zeroAdded_trueOf : zeroAdded.TrueOf zeroAddedValues := by
  constructor
  · refine ⟨fun _ => 1, fun z f t hf ht => ?_⟩
    have names : z = "x" ∨ z = "y" := by
      have mem : (z, f) ∈ zeroAdded.facts := Scope.mem_of_get?_eq_some hf
      simp only [zeroAdded, List.map_cons, List.map_nil, List.mem_cons, Prod.mk.injEq,
        List.not_mem_nil, or_false] at mem
      exact mem.imp And.left And.left
    rcases names with rfl | rfl <;> cases hf <;> cases ht <;>
      exact ⟨by rintro _ ⟨⟩; rfl, by rintro _ ⟨⟩; exact ⟨rfl, rfl, trivial⟩, by rintro _ ⟨⟩⟩
  · refine fun z c t => alike_of_constant? rfl fun i hi t ht => ?_
    cases List.mem_singleton.1 hi
    cases ht
    rfl

theorem eliminateNop_zeroAdded : ∃ y x, (Rule.propose zeroAdded [] 0
      { opType := "Add", inputs := ["c", "x"], outputs := ["y"] } .eliminateNopArithmetic).2 =
        some (.forward [(y, x)]) ∧
    ∃ t u, zeroAddedValues.get? x = some t ∧ zeroAddedValues.get? y = some u ∧ u.SameNumbers t := by
  have proposed : (Rule.propose zeroAdded [] 0
      { opType := "Add", inputs := ["c", "x"], outputs := ["y"] } .eliminateNopArithmetic).2 =
        some (.forward [("y", "x")]) := by cbv
  have valid : zeroAdded.graph.validate [] = .ok () := by cbv
  obtain ⟨y, x, -, -, hchange, sound⟩ :=
    eliminateNop_sound valid List.mem_cons_self (by decide) proposed
  cases hchange
  refine ⟨"y", "x", proposed, ?_⟩
  have counted : ∀ z t, zeroAddedValues.get? z = some t → t.Counted := by
    intro z t ht
    have mem : (z, t) ∈ zeroAddedValues := Scope.mem_of_get?_eq_some ht
    simp only [zeroAddedValues, List.mem_cons, Prod.mk.injEq, List.not_mem_nil, or_false] at mem
    rcases mem with ⟨-, rfl⟩ | ⟨-, rfl⟩ | ⟨-, rfl⟩ <;> exact fun _ => rfl
  obtain ⟨t, u, ht, hu, -, same, -⟩ := sound ⟨0⟩ zeroAddedValues zeroAdded_trueOf counted
    (Node.holds_single rfl ⟨_, _, rfl, rfl, by cbv⟩ rfl)
  exact ⟨t, u, ht, hu, same⟩

end View
end TensorGraph
