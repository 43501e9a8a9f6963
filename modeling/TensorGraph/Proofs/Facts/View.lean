import TensorGraph.Proofs.Dimension.Holds
import TensorGraph.Proofs.Evaluation.Kernel
import TensorGraph.Proofs.Operator.Transpose
import TensorGraph.Proofs.Simplification.Match

/-!
# Views that are true of a run

Input:

* what rules see of a graph (`View`), and the values of a run of the graph of which it is true
  (`View.TrueOf`).

Results:

* types, ranks and shapes that are known are those of the values;
* the integers and the permutation that a rule reads from a node are those that the operator of the
  node uses (`View.TrueOf.axesInput_eq`, `View.TrueOf.resolvePerm_eq`), so what the node yields is said
  with what the rule reads (`View.TrueOf.transposes`, `reshapes`, `squeezes`, `unsqueezes`).
-/

namespace TensorGraph

/-- What a name stands for is one of its bindings. -/
theorem Scope.mem_of_get?_eq_some {α : Type} {s : Scope α} {name : String} {x : α}
    (h : s.get? name = some x) : (name, x) ∈ s := by
  obtain ⟨before, after, rfl, -⟩ := List.lookup_eq_some_iff.1 h
  simp

theorem Tensor.intList_of_int64s? {t : Tensor} {xs : Array Int64} (h : t.int64s? = some xs) :
    t.intList = .ok (xs.toList.map Int64.toInt) := by
  unfold intList
  rw [h]
  rfl

/-- Axes that are not negative count from the first dimension. -/
theorem eq_of_nonneg_axes {values : List Int64} {rank : Nat} {perm found : List Nat}
    (h : (values.mapM fun p => if 0 ≤ p then some p.toInt.toNat else none) = some perm)
    (h' : (values.map Int64.toInt).mapM (resolveAxis? rank) = some found) : found = perm := by
  induction values generalizing perm found with
  | nil =>
      cases h
      cases h'
      rfl
  | cons p rest ih =>
      rw [List.mapM_cons] at h
      rw [List.map_cons, List.mapM_cons] at h'
      obtain ⟨i, hi, h⟩ := Option.bind_eq_some_iff.1 h
      obtain ⟨is, his, h⟩ := Option.bind_eq_some_iff.1 h
      obtain ⟨j, hj, h'⟩ := Option.bind_eq_some_iff.1 h'
      obtain ⟨js, hjs, h'⟩ := Option.bind_eq_some_iff.1 h'
      cases h
      cases h'
      split at hi
      · rename_i nonneg
        cases hi
        have sign : 0 ≤ p.toInt := Int64.le_iff_toInt_le.1 nonneg
        have same := (resolveAxis?_eq_some_iff.1 hj).2
        rw [if_neg (by omega)] at same
        rw [ih his hjs, ← same, Int.toNat_natCast]
      · cases hi

namespace View

variable {v : View} {V : Scope Tensor} {n : Node} {x : String} {t : Tensor}

/-- Whether what rules see is true of the values of a run: the facts, for some sizes of the names in
them, and the constants. -/
structure TrueOf (v : View) (V : Scope Tensor) : Prop where
  facts : ∃ σ : String → Int, ∀ x f t, v.factsOf? x = some f → V.get? x = some t → f.Holds σ t
  constants : ∀ x c t, v.constant? x = some c → V.get? x = some t → c.Alike t

/-- The producer of a value is a node of the graph that has it as an output. -/
theorem mem_of_producer? {i : Nat} {m : Node} (h : v.producer? x = some (i, m)) :
    v.graph.nodes[i]? = some m ∧ x ∈ m.presentOutputs :=
  v.computations_of x i m h

/-- Outside of functions and bodies, the constants that rules see are the initializers. -/
theorem alike_of_constant? {c : Tensor} (outermost : v.surroundings = {})
    (values : ∀ i ∈ v.graph.initializers, ∀ t, V.get? i.name = some t → t = i.value)
    (hc : v.constant? x = some c) (ht : V.get? x = some t) : c.Alike t := by
  obtain ⟨hc, -⟩ := Option.filter_eq_some_iff.1 hc
  rw [outermost] at hc
  simp only [Graph.initializer?, Scope.get?_nil, Option.or_none, Option.map_eq_some_iff] at hc
  obtain ⟨i, hi, rfl⟩ := hc
  obtain rfl : i.name = x := by simpa using List.find?_some hi
  rw [values i (List.mem_of_find?_eq_some hi) t ht]

namespace TrueOf

theorem elementType_eq (h : v.TrueOf V) {type : ElementType} (hx : v.type? x = some type)
    (ht : V.get? x = some t) : t.elementType = type := by
  obtain ⟨σ, facts⟩ := h.facts
  obtain ⟨f, hf, hx⟩ := Option.bind_eq_some_iff.1 hx
  exact (facts x f t hf ht).type_eq type hx

theorem rank_eq (h : v.TrueOf V) {rank : Nat} (hx : v.rank? x = some rank)
    (ht : V.get? x = some t) : t.rank = rank := by
  obtain ⟨σ, facts⟩ := h.facts
  obtain ⟨f, hf, hx⟩ := Option.bind_eq_some_iff.1 hx
  obtain ⟨dims, hdims, rfl⟩ := Option.map_eq_some_iff.1 hx
  exact (Dim.length_of_allHold ((facts x f t hf ht).shape_eq dims hdims)).symm

/-- The dimensions of a shape that is known are those of the value. -/
theorem exists_allHold (h : v.TrueOf V) {dims : List Dim} (hx : v.knownShape? x = some dims)
    (ht : V.get? x = some t) : ∃ σ : String → Int, Dim.AllHold σ dims t.shape := by
  obtain ⟨σ, facts⟩ := h.facts
  obtain ⟨hx, -⟩ := Option.filter_eq_some_iff.1 hx
  obtain ⟨f, hf, hx⟩ := Option.bind_eq_some_iff.1 hx
  exact ⟨σ, (facts x f t hf ht).shape_eq dims hx⟩

/-- Values whose dimensions are known to be equal have the same shape. -/
theorem shape_eq (h : v.TrueOf V) {y : String} {u : Tensor} {dims : List Dim}
    (hx : v.knownShape? x = some dims) (hy : v.knownShape? y = some dims)
    (ht : V.get? x = some t) (hu : V.get? y = some u) : t.shape = u.shape := by
  obtain ⟨σ, facts⟩ := h.facts
  obtain ⟨hx, known⟩ := Option.filter_eq_some_iff.1 hx
  obtain ⟨hy, -⟩ := Option.filter_eq_some_iff.1 hy
  obtain ⟨f, hf, hx⟩ := Option.bind_eq_some_iff.1 hx
  obtain ⟨g, hg, hy⟩ := Option.bind_eq_some_iff.1 hy
  refine Dim.eq_of_allHold (fun d hd => ?_) ((facts x f t hf ht).shape_eq dims hx)
    ((facts y g u hg hu).shape_eq dims hy)
  simpa using List.all_eq_true.1 known d hd

/-- The integers of a constant are those of its value. -/
theorem intList_eq (h : v.TrueOf V) {c : Tensor} {xs : Array Int64} (hc : v.constant? x = some c)
    (hxs : c.int64s? = some xs) (ht : V.get? x = some t) :
    t.intList = .ok (xs.toList.map Int64.toInt) := by
  rw [← Tensor.Likeness.intList (h.constants x c t hc ht)]
  exact Tensor.intList_of_int64s? hxs

/-- An operator gets the integers of a constant that is an input. -/
theorem ints?_eq (h : v.TrueOf V) {args : Inputs} {i : Nat} {c : Tensor} {xs : Array Int64}
    (hargs : n.arguments V = .ok args) (hx : n.input? i = some x) (hc : v.constant? x = some c)
    (hxs : c.int64s? = some xs) : args.ints? i = .ok (some (xs.toList.map Int64.toInt)) := by
  obtain ⟨found, -⟩ := Node.arguments_eq_ok_iff.1 hargs
  obtain ⟨s, hs⟩ := found x (Node.mem_presentInputs_of_input? hx)
  have arg : args.get? i = some s := by
    rw [Node.get?_arguments hargs, hx]
    exact hs
  unfold Inputs.ints?
  simp only [arg, h.intList_eq hc hxs hs]
  rfl

open AttributeValue

/-- The axes that a rule reads from a node are those that its operator uses. -/
theorem axesInput_eq (h : v.TrueOf V) {args : Inputs} {axes : List Int} {given : Option (List Int)}
    (hargs : n.arguments V = .ok args) (hgiven : n.read? "axes" asInts = .ok given)
    (haxes : v.integers? n "axes" 1 = some axes) : axesInput given args = .ok (some axes) := by
  unfold integers? at haxes
  unfold Node.read? at hgiven
  split at haxes
  · rename_i values hattr
    cases haxes
    rw [hattr] at hgiven
    cases hgiven
    rfl
  · cases haxes
  · rename_i hattr
    rw [hattr] at hgiven
    cases hgiven
    obtain ⟨y, hy, haxes⟩ := Option.bind_eq_some_iff.1 haxes
    obtain ⟨c, hc, haxes⟩ := Option.bind_eq_some_iff.1 haxes
    obtain ⟨xs, hxs, haxes⟩ := Option.bind_eq_some_iff.1 haxes
    cases haxes
    exact h.ints?_eq hargs hy hc hxs

section

variable {version : Option Int64} {chance : Generator} {axes : List Int}

/-- What a node yields that removes dimensions at axes that a rule reads. -/
theorem squeezes (h : v.TrueOf V) (hop : n.isOperator "Squeeze" = true)
    (haxes : v.integers? n "axes" 1 = some axes) :
    n.Maps version chance V fun t u => squeezeBy axes t = .ok u := by
  intro ts yields
  obtain ⟨given, args, u, hgiven, hargs, hu, rfl⟩ := (Node.yields_squeeze_iff hop).1 yields
  rw [runSqueeze_some (h.axesInput_eq hargs hgiven haxes), Node.require_bind_eq_ok_iff hargs] at hu
  obtain ⟨x, t, hx, ht, hu⟩ := hu
  exact ⟨x, t, u, hx, ht, hu, rfl⟩

/-- What a node yields that inserts dimensions at axes that a rule reads. -/
theorem unsqueezes (h : v.TrueOf V) (hop : n.isOperator "Unsqueeze" = true)
    (haxes : v.integers? n "axes" 1 = some axes) :
    n.Maps version chance V fun t u => unsqueezeBy axes t = .ok u := by
  intro ts yields
  obtain ⟨given, args, u, hgiven, hargs, hu, rfl⟩ := (Node.yields_unsqueeze_iff hop).1 yields
  rw [runUnsqueeze_some (h.axesInput_eq hargs hgiven haxes), Node.require_bind_eq_ok_iff hargs] at hu
  obtain ⟨x, t, hx, ht, hu⟩ := hu
  exact ⟨x, t, u, hx, ht, hu, rfl⟩

end

/-- The permutation that a rule reads from a node is the one that its operator uses. -/
theorem resolvePerm_eq (h : v.TrueOf V) {perm order : List Nat} {given : Option (List Int)}
    (hx : n.input? 0 = some x) (ht : V.get? x = some t) (hgiven : n.read? "perm" asInts = .ok given)
    (hperm : v.permutation? n = some perm) (horder : resolvePerm given t.rank = .ok order) :
    order = perm := by
  unfold permutation? at hperm
  unfold Node.read? at hgiven
  split at hperm
  · rename_i values hattr
    rw [hattr] at hgiven
    cases hgiven
    unfold resolvePerm at horder
    dsimp only at horder
    split at horder
    · cases horder
    · exact eq_of_nonneg_axes hperm (resolveAxes_eq_ok_iff.1 horder).1
  · cases hperm
  · rename_i hattr
    rw [hattr] at hgiven
    cases hgiven
    obtain ⟨y, hy, hperm⟩ := Option.bind_eq_some_iff.1 hperm
    obtain ⟨rank, hrank, hperm⟩ := Option.bind_eq_some_iff.1 hperm
    cases hperm
    cases horder
    rw [hx] at hy
    cases hy
    rw [h.rank_eq hrank ht]

/-- What a node yields that lists dimensions in an order that a rule reads. -/
theorem transposes {version : Option Int64} {chance : Generator} {order : List Nat} (h : v.TrueOf V)
    (hop : n.isOperator "Transpose" = true) (horder : v.permutation? n = some order) :
    n.Maps version chance V fun t u =>
      order.Perm (List.range t.rank) ∧ transposeBy order t = .ok u := by
  intro ts yields
  obtain ⟨given, _, x, t, order', u, hgiven, -, hx, ht, hperm, hu, rfl⟩ :=
    (Node.yields_transpose_iff hop).1 yields
  obtain rfl := h.resolvePerm_eq hx ht hgiven horder hperm
  exact ⟨x, t, u, hx, ht, ⟨perm_of_resolvePerm hperm, hu⟩, rfl⟩

/-- What a node yields that changes a shape to a constant that a rule reads. -/
theorem reshapes {version : Option Int64} {chance : Generator} {name : String} {c : Tensor}
    {xs : Array Int64} (h : v.TrueOf V) (hop : n.isOperator "Reshape" = true)
    (hname : n.input? 1 = some name) (hc : v.constant? name = some c) (hxs : c.int64s? = some xs) :
    n.Maps version chance V fun t u => ∃ allowZero, n.readOr "allowzero" false asBool = .ok allowZero ∧
      reshapeBy allowZero (xs.toList.map Int64.toInt) t = .ok u := by
  intro ts yields
  obtain ⟨allowZero, args, x, t, target, u, hallow, hargs, hx, ht, htarget, hu, rfl⟩ :=
    (Node.yields_reshape_iff hop).1 yields
  rw [Inputs.requireInts, h.ints?_eq hargs hname hc hxs] at htarget
  cases htarget
  exact ⟨x, t, u, hx, ht, ⟨allowZero, hallow, hu⟩, rfl⟩

end TrueOf

/-! ## Two nodes in a row -/

/-- A graph with two nodes in a row and some constants.  The rank of one value is known. -/
def pair (first second : Node) (constants : List Initializer) (x : String) (rank : Nat) : View where
  version := none
  graph :=
    { nodes := [first, second]
      inputs := [{ name := "x" }]
      initializers := constants
      outputs := [{ name := "z" }] }
  facts := [(x, { shape := some (List.replicate rank .unknown) })]
  surroundings := {}

/-- What is seen of two nodes in a row is true when the rank and the constants are. -/
theorem pair_trueOf {first second : Node} {constants : List Initializer} {rank : Nat}
    (hx : ∀ t, V.get? x = some t → t.rank = rank)
    (values : ∀ i ∈ constants, ∀ t, V.get? i.name = some t → t = i.value) :
    (pair first second constants x rank).TrueOf V := by
  constructor
  · refine ⟨fun _ => 1, fun y f t hf ht => ?_⟩
    have hy : (y, f) ∈ [(x, { shape := some (List.replicate rank .unknown) : Facts })] :=
      Scope.mem_of_get?_eq_some hf
    rw [List.mem_singleton, Prod.mk.injEq] at hy
    obtain ⟨rfl, rfl⟩ := hy
    refine ⟨by simp, ?_, by simp⟩
    rintro dims ⟨⟩
    rw [← hx t ht]
    exact Dim.allHold_unknown
  · exact fun y c t => alike_of_constant? rfl values

end View
end TensorGraph
