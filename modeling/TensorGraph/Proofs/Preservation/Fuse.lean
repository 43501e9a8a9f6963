import Mathlib
import TensorGraph.Proofs.Facts.View
import TensorGraph.Proofs.Simplification.Proposal

/-!
# Values of fused nodes

Input:

* two nodes in a row that a rule replaces by one, or that it cancels;
* values of a run of which the view of the rule is true, so that the first node holds in them.

Main results:

* `View.fuseTransposes_sound` and `View.fuseReshapes_sound`: whenever the second node yields a tensor, the
  node that takes its place yields the same one from the input of the first node;
* `View.fuseSqueezeUnsqueeze_sound`: whatever the second node yields is the input of the first node.
-/

namespace TensorGraph

open AttributeValue

variable {v : View} {n : Node} {change : Change}

/-! ## Attributes -/

namespace Node

theorem attribute?_setAttribute (n : Node) (name : String) (value : AttributeValue) :
    (n.setAttribute name value).attribute? name = some value := by
  unfold setAttribute attribute?
  dsimp only
  induction n.attributes with
  | nil => simp [setAttributeIn]
  | cons a rest ih =>
      unfold setAttributeIn
      split
      · rename_i heq
        simp [heq]
      · rename_i hne
        rw [List.find?_cons_of_neg (by simpa using hne)]
        exact ih

end Node

/-! ## Transpositions -/

/-- Positions that are all there. -/
theorem permuted_of_mapM_getElem? {order xs out : List Nat}
    (h : order.mapM (fun p => xs[p]?) = some out) (j : Nat) : out = permuted order xs j := by
  have each := forall₂_of_mapM_eq_some h
  clear h
  induction each with
  | nil => rfl
  | cons hx _ ih =>
      rw [ih, permuted, permuted, List.map_cons, List.getD_eq_getElem?_getD, hx, Option.getD]

/-- A permutation of a permutation is one. -/
theorem perm_permuted {first second : List Nat} {rank : Nat} (h₁ : first.Perm (List.range rank))
    (h₂ : second.Perm (List.range rank)) (j : Nat) :
    (permuted second first j).Perm (List.range rank) := by
  have length : first.length = rank := by simpa using h₁.length_eq
  have order : (permuted second first j).Perm (permuted (List.range rank) first j) := h₂.map _
  rw [permuted_range rank length] at order
  exact order.trans h₁

/-- The node that takes the place of the second of two transpositions yields the same tensor, from the
input of the first one.  The rank is bounded because permutations are stored as 64-bit integers. -/
theorem View.fuseTransposes_sound (h : v.fuseTransposes n = some change) :
    ∃ y i inner x fused, n.input? 0 = some y ∧ v.producer? y = some (i, inner) ∧
      inner.input? 0 = some x ∧ change = .replace [fused] [] ∧
      fused.inputs = n.inputs.set 0 x ∧ fused.outputs = n.outputs ∧
      ∀ (chance : Generator) (V : Scope Tensor) (ts : List Tensor), v.TrueOf V →
        (∀ t, V.get? x = some t → t.rank < 2 ^ 63) → inner.Holds v.version chance V →
        n.Yields v.version chance V ts → fused.Yields v.version chance V ts := by
  obtain ⟨y, i, inner, x, outer, first, perm, hy, hprod, hop, hop', houter, hfirst, hperm, hx, rfl⟩ :=
    fuseTransposes_eq_some h
  refine ⟨y, i, inner, x, _, hy, hprod, hx, rfl, rfl, rfl, ?_⟩
  intro chance V ts trueOf bound holds yields
  obtain ⟨t, u, w, ht, ⟨h₁, hu⟩, ⟨h₂, hw⟩, rfl⟩ := (trueOf.transposes hop' hfirst).feed
    (trueOf.transposes hop houter) (fun u s w alike hw => ⟨Tensor.Likeness.rank alike ▸ hw.1,
      (Tensor.Likeness.apply_eq alike (transposeBy outer) fun _ _ _ _ => rfl).trans hw.2⟩)
    hx hy (mem_of_producer? hprod).2 holds yields
  obtain ⟨_, args, _, _, _, _, _, hargs, -, -, -, -, -⟩ := (Node.yields_transpose_iff hop).1 yields
  obtain rfl := permuted_of_mapM_getElem? hperm 0
  rw [rank_of_transposeBy h₁ hu] at h₂
  have both := perm_permuted h₁ h₂ 0
  have output : transposeBy (permuted outer first 0) t = .ok w :=
    (transposeBy_transposeBy h₁ h₂ hu 0).symm.trans hw
  -- Fewer than 2⁶³ dimensions are stored as they are.
  have stored : ((permuted outer first 0).map fun p => Int64.ofNat p).map Int64.toInt =
      (permuted outer first 0).map Nat.cast := by
    rw [List.map_map]
    refine List.map_congr_left fun p hp => ?_
    have small := bound t ht
    exact Int64.toInt_ofNat_of_lt (Nat.lt_trans (List.mem_range.1 (both.mem_iff.1 hp)) small)
  refine (Node.yields_transpose_iff (n := (withFirstInput n x).setAttribute "perm" _) hop).2
    ⟨some ((permuted outer first 0).map Nat.cast), args.set 0 (some t), x, t, _, w, ?_, ?_, ?_, ht,
      resolvePerm_natCast both, output, rfl⟩
  · unfold Node.read?
    rw [Node.attribute?_setAttribute, ← stored]
    rfl
  · exact Node.arguments_withFirstInput rfl hargs hy (Node.input?_eq_some_iff.1 hx).2 ht
  · exact Node.input?_set_zero rfl hy (Node.input?_eq_some_iff.1 hx).2

/-- A node that lists the dimensions of its input in another order. -/
def Node.transposing (perm : Option (List Int64)) (x y : String) : Node where
  opType := "Transpose"
  inputs := [x]
  outputs := [y]
  attributes := perm.toList.map fun order => { name := "perm", value := .ints order }

namespace View

/-- A tensor with three dimensions is transposed twice, the second time in the reverse order. -/
def turnedTwice : View :=
  pair (.transposing (some [1, 2, 0]) "x" "y") (.transposing none "y" "z") [] "y" 3

/-- The order of one transposition that does the same is neither of the two, and differs from what they
give when they are composed the other way. -/
theorem fuseTransposes_turnedTwice :
    turnedTwice.fuseTransposes (.transposing none "y" "z") =
        some (.replace [.transposing (some [0, 2, 1]) "x" "z"] []) ∧
      (Node.transposing (some [0, 2, 1]) "x" "z").Yields none ⟨0⟩
        [("x", ⟨[1, 2, 3], .int64 #[0, 1, 2, 3, 4, 5], none⟩),
          ("y", ⟨[2, 3, 1], .int64 #[0, 1, 2, 3, 4, 5], none⟩)]
        [⟨[1, 3, 2], .int64 #[0, 3, 1, 4, 2, 5], none⟩] := by
  have fused : turnedTwice.fuseTransposes (.transposing none "y" "z") =
      some (.replace [.transposing (some [0, 2, 1]) "x" "z"] []) := by cbv
  obtain ⟨y, i, inner, x, node, hy, hprod, hx, hchange, -, -, sound⟩ := fuseTransposes_sound fused
  cases hy
  cases hprod
  cases hx
  cases hchange
  refine ⟨fused, sound ⟨0⟩ _ _ (pair_trueOf ?_ (by simp)) ?_ ?_ ?_⟩
  · rintro t ⟨⟩
    rfl
  · rintro t ⟨⟩
    decide
  · exact Node.holds_single rfl ⟨_, _, rfl, rfl, by cbv⟩ rfl
  · exact ⟨_, _, rfl, rfl, by cbv⟩

end View

/-! ## Reshapes -/

namespace Pattern

/-- What the pattern of two reshapes matches. -/
theorem matches?_reshapeTwice {c : Computations} {output : String} {found : MatchState}
    (h : View.reshapeTwice.matches? c output = some found) :
    ∃ i m y name j inner x s, c.producer? output = some (i, m) ∧
      m.isOperator "Reshape" = true ∧ operands m = [y, name] ∧ y ≠ "" ∧ name ≠ "" ∧
      c.producer? y = some (j, inner) ∧ inner.isOperator "Reshape" = true ∧
      operands inner = [x, s] ∧ x ≠ "" ∧
      found.value? "x" = some x ∧ found.value? "shape" = some name := by
  obtain ⟨i, m, hprod, hop, hdomain, hlen, hmatch⟩ := matches?_operator h
  rw [if_neg (by decide), bindKey_none] at hmatch
  obtain ⟨y, name, s₁, hops, hy, hname, hfirst, hshape⟩ := testAll_pair hlen hmatch
  obtain ⟨j, inner, hprod', hop', hdomain', hlen', hmatch'⟩ := test_operator hfirst
  rw [if_neg (by decide), bindKey_none] at hmatch'
  obtain ⟨x, s, s₂, hops', hx, -, hany, hany'⟩ := testAll_pair hlen' hmatch'
  refine ⟨i, m, y, name, j, inner, x, s, hprod, Node.isOperator_iff.2 ⟨hop, hdomain⟩, hops, hy, hname,
    hprod', Node.isOperator_iff.2 ⟨hop', hdomain'⟩, hops', hx, ?_, (test_symbol hshape).1⟩
  exact (test_symbol hshape).2 _ _ ((test_symbol hany').2 _ _ (test_symbol hany).1)

end Pattern

/-- When a rule makes one reshape of two, the second one copies no dimension of its input: zeros stand
for themselves, or there are none. -/
theorem Node.allowZero_or_not_mem {xs : Array Int64} {allowZero : Bool}
    (plain : n.attribute? "allowzero" = some (.int 1) ∨ 0 ∉ xs)
    (hallow : n.readOr "allowzero" false asBool = .ok allowZero) :
    allowZero = true ∨ 0 ∉ xs.toList.map Int64.toInt := by
  refine plain.imp (fun hattr => ?_) fun hzero hmem => hzero ?_
  · unfold readOr read? at hallow
    rw [hattr] at hallow
    cases hallow
    rfl
  · obtain ⟨z, hz, hz'⟩ := List.mem_map.1 hmem
    rw [Int64.toInt_inj.1 (hz'.trans Int64.toInt_zero.symm)] at hz
    exact Array.mem_toList_iff.1 hz

/-- In a valid graph each value has one producer. -/
theorem View.eq_of_producer? {outer : List String} (valid : v.graph.validate outer = .ok ())
    (hn : n ∈ v.graph.nodes) {x : String} (hx : x ∈ n.presentOutputs) {i : Nat} {m : Node}
    (h : v.producer? x = some (i, m)) : m = n := by
  obtain ⟨hi, hx'⟩ := mem_of_producer? h
  obtain ⟨j, hj⟩ := List.getElem?_of_mem hn
  have distinct := (Graph.Unique.of_nodup (Graph.validate_eq_ok_iff.1 valid).1).distinct
  cases distinct.eq_index hi hj hx' hx
  exact Option.some.inj (hi.symm.trans hj)

/-- The node that takes the place of the second of two reshapes yields the same tensor, from the input of
the first one. -/
theorem View.fuseReshapes_sound {outer : List String} (valid : v.graph.validate outer = .ok ())
    (hn : n ∈ v.graph.nodes) (h : v.fuseReshapes n = some change) :
    ∃ y i inner x, n.input? 0 = some y ∧ v.producer? y = some (i, inner) ∧
      inner.isOperator "Reshape" = true ∧ inner.input? 0 = some x ∧
      change = .replace [withFirstInput n x] [] ∧
      ∀ (chance : Generator) (V : Scope Tensor) (ts : List Tensor), v.TrueOf V →
        inner.Holds v.version chance V → n.Yields v.version chance V ts →
        (withFirstInput n x).Yields v.version chance V ts := by
  obtain ⟨output, found, x, name, c, xs, hop, hout, hm, hx, hname, hc, hxs, plain, rfl⟩ :=
    fuseReshapes_eq_some h
  obtain ⟨k, m, y, name', i, inner, x', s, hprod, -, hops, hy, hne, hprod', hop', hops', hx', heq, heq'⟩ :=
    Pattern.matches?_reshapeTwice hm
  cases hx.symm.trans heq
  cases hname.symm.trans heq'
  have same : m = n := by
    refine eq_of_producer? valid hn (Node.mem_presentOutputs.2 ⟨List.mem_of_head? hout, ?_⟩) hprod
    exact (Node.mem_presentOutputs.1 (mem_of_producer? hprod).2).2
  subst same
  have input := (Node.input?_of_operands hops).1 hy
  have input' := (Node.input?_of_operands hops').1 hx'
  refine ⟨y, i, inner, x, input, hprod', hop', input', rfl, ?_⟩
  intro chance V ts trueOf holds yields
  have shape := (Node.input?_of_operands hops).2
  obtain ⟨t, u, w, ht, ⟨_, _, hu⟩, ⟨allowZero, hallow, hw⟩, rfl⟩ := (Node.maps_reshape hop').feed
    (trueOf.reshapes hop shape hc hxs) (fun u s w alike => Exists.imp fun allowZero => And.imp_right
      (Tensor.Likeness.apply_eq alike (reshapeBy allowZero _) fun _ _ _ _ => rfl).trans)
    input' input (mem_of_producer? hprod').2 holds yields
  obtain ⟨_, args, _, _, _, _, -, hargs, -, -, -, -, -⟩ := (Node.yields_reshape_iff hop).1 yields
  have output : reshapeBy allowZero (xs.toList.map Int64.toInt) t = .ok w :=
    (reshapeBy_reshapeBy (Node.allowZero_or_not_mem plain hallow) hu).symm.trans hw
  have hne' := (Node.input?_eq_some_iff.1 input').2
  refine (Node.yields_reshape_iff (n := withFirstInput m x) hop).2
    ⟨allowZero, args.set 0 (some t), x, t, _, w, hallow,
      Node.arguments_withFirstInput rfl hargs input hne' ht, Node.input?_set_zero rfl input hne', ht,
      ?_, output, rfl⟩
  rw [Inputs.requireInts, Inputs.ints?, Node.get?_set_zero, ← Inputs.ints?,
    trueOf.ints?_eq hargs shape hc hxs]
  rfl

/-- A node that changes the shape of a tensor to one that is given by a value. -/
def Node.reshaping (allowZero : Bool) (x shape y : String) : Node where
  opType := "Reshape"
  inputs := [x, shape]
  outputs := [y]
  attributes := [{ name := "allowzero", value := .int (if allowZero then 1 else 0) }]

namespace View

/-- A tensor without elements is reshaped twice.  A zero copies a dimension the first time and stands
for itself the second time. -/
def emptiedTwice : View :=
  pair (.reshaping false "x" "s" "y") (.reshaping true "y" "t" "z")
    [⟨"t", .vector #[(0 : Int64), 7]⟩] "x" 2

theorem fuseReshapes_emptiedTwice :
    emptiedTwice.fuseReshapes (.reshaping true "y" "t" "z") =
        some (.replace [.reshaping true "x" "t" "z"] []) ∧
      (Node.reshaping true "x" "t" "z").Yields none ⟨0⟩
        [("x", ⟨[2, 0], .int64 #[], none⟩), ("s", .vector #[(0 : Int64), 0, 5]),
          ("t", .vector #[(0 : Int64), 7]), ("y", ⟨[2, 0, 5], .int64 #[], none⟩)]
        [⟨[0, 7], .int64 #[], none⟩] := by
  have fused : emptiedTwice.fuseReshapes (.reshaping true "y" "t" "z") =
      some (.replace [.reshaping true "x" "t" "z"] []) := by cbv
  have valid : emptiedTwice.graph.validate ["s"] = .ok () := by cbv
  obtain ⟨y, i, inner, x, hy, hprod, -, hx, hchange, sound⟩ :=
    fuseReshapes_sound valid (List.mem_cons_of_mem _ List.mem_cons_self) fused
  cases hy
  cases hprod
  cases hx
  refine ⟨fused, sound ⟨0⟩ _ _ (pair_trueOf ?_ ?_) ?_ ?_⟩
  · rintro t ⟨⟩
    rfl
  · rintro i hi t ht
    cases List.mem_singleton.1 hi
    cases ht
    rfl
  · exact Node.holds_single rfl ⟨_, _, rfl, rfl, by cbv⟩ rfl
  · exact ⟨_, _, rfl, rfl, by cbv⟩

end View

/-! ## Inserted and removed dimensions -/

namespace View

/-- When a node that inserts dimensions and one that removes them cancel, whatever the second one yields
is the input of the first one. -/
theorem fuseSqueezeUnsqueeze_sound (h : v.fuseSqueezeUnsqueeze n = some change) :
    ∃ y i inner x out, n.input? 0 = some y ∧ v.producer? y = some (i, inner) ∧
      inner.input? 0 = some x ∧ n.firstOutput? = some out ∧ change = .forward [(out, x)] ∧
      ∀ (chance : Generator) (V : Scope Tensor) (ts : List Tensor), v.TrueOf V →
        inner.Holds v.version chance V → n.Yields v.version chance V ts →
        ∃ t u, V.get? x = some t ∧ ts = [u] ∧ u.Alike t := by
  obtain ⟨y, i, inner, x, outerAxes, innerAxes, rank, found, found', hy, hprod, hx, houter, hinner,
    hrank, forwards, perm, hops⟩ := fuseSqueezeUnsqueeze_eq_some h
  obtain ⟨out, hout, rfl⟩ := Node.forwardTo_eq_some_iff.1 forwards
  refine ⟨y, i, inner, x, out, hy, hprod, hx, hout, rfl, ?_⟩
  intro chance V ts trueOf holds yields
  have feeds := (mem_of_producer? hprod).2
  rcases hops with ⟨hop, hop', hfound, hfound'⟩ | ⟨hop, hop', hfound, hfound'⟩
  · obtain ⟨t, u, w, ht, hu, hw, rfl⟩ := (trueOf.unsqueezes hop' hinner).feed
      (trueOf.squeezes hop houter) (fun u s w alike =>
        (Tensor.Likeness.apply_eq alike (squeezeBy outerAxes) fun _ _ _ _ => rfl).trans)
      hx hy feeds holds yields
    rw [← trueOf.rank_eq hrank ht] at hfound hfound'
    exact ⟨t, w, ht, rfl, alike_of_squeezeBy_unsqueezeBy hfound' hfound perm hu hw⟩
  · obtain ⟨t, u, w, ht, hu, hw, rfl⟩ := (trueOf.squeezes hop' hinner).feed
      (trueOf.unsqueezes hop houter) (fun u s w alike =>
        (Tensor.Likeness.apply_eq alike (unsqueezeBy outerAxes) fun _ _ _ _ => rfl).trans)
      hx hy feeds holds yields
    rw [← trueOf.rank_eq hrank ht] at hfound hfound'
    exact ⟨t, w, ht, rfl, alike_of_unsqueezeBy_squeezeBy hfound' hfound perm hu hw⟩

end View

/-- A node that inserts or removes dimensions at axes that an attribute gives. -/
def Node.rescaling (opType : String) (axes : List Int64) (x y : String) : Node where
  opType := opType
  inputs := [x]
  outputs := [y]
  attributes := [{ name := "axes", value := .ints axes }]

namespace View

/-- Two of three dimensions are removed and inserted again, each time with other axes. -/
def narrowed : View :=
  pair (.rescaling "Squeeze" [-1, 0] "x" "y") (.rescaling "Unsqueeze" [-3, 2] "y" "z") [] "x" 3

theorem fuseSqueezeUnsqueeze_narrowed :
    narrowed.fuseSqueezeUnsqueeze (.rescaling "Unsqueeze" [-3, 2] "y" "z") =
        some (.forward [("z", "x")]) ∧
      ∃ u, (Node.rescaling "Unsqueeze" [-3, 2] "y" "z").Yields none ⟨0⟩
          [("x", ⟨[1, 2, 1], .int64 #[7, 8], none⟩), ("y", ⟨[2], .int64 #[7, 8], none⟩)] [u] ∧
        u.Alike ⟨[1, 2, 1], .int64 #[7, 8], none⟩ := by
  have fused : narrowed.fuseSqueezeUnsqueeze (.rescaling "Unsqueeze" [-3, 2] "y" "z") =
      some (.forward [("z", "x")]) := by cbv
  have yields : (Node.rescaling "Unsqueeze" [-3, 2] "y" "z").Yields none ⟨0⟩
      [("x", ⟨[1, 2, 1], .int64 #[7, 8], none⟩), ("y", ⟨[2], .int64 #[7, 8], none⟩)]
      [⟨[1, 2, 1], .int64 #[7, 8], none⟩] :=
    ⟨_, _, rfl, rfl, by cbv⟩
  obtain ⟨y, i, inner, x, out, hy, hprod, hx, hout, hchange, sound⟩ :=
    fuseSqueezeUnsqueeze_sound fused
  cases hy
  cases hprod
  cases hx
  cases hout
  obtain ⟨t, u, ht, heq, alike⟩ := sound ⟨0⟩ _ _
    (pair_trueOf (by rintro t ⟨⟩; rfl) (by simp))
    (Node.holds_single rfl ⟨_, _, rfl, rfl, by cbv⟩ rfl) yields
  cases ht
  exact ⟨fused, u, heq ▸ yields, alike⟩

end View
end TensorGraph
