import TensorGraph.Proofs.Operator.Normalization
import TensorGraph.Proofs.Simplification.Description
import TensorGraph.Simplification.Fusion

/-!
# When rules propose a change

Input:

* a rule that leaves out a node or fuses two nodes, and a change that it proposes.

Results:

* one inversion lemma for each rule: all that the rule has seen when it proposes the change, and what
  the change is (`View.eliminateNopCast_eq_some` and the others);
* the numbers of a convolution and a normalization that a rule reads are one structure
  (`View.Normalizes`).

What proposals keep and what they mean is proved from these lemmas.
-/

namespace TensorGraph

variable {v : View} {n : Node} {change : Change}

theorem Node.forwardTo_eq_some_iff {x : String} :
    n.forwardTo x = some change ↔ ∃ y, n.firstOutput? = some y ∧ change = .forward [(y, x)] := by
  unfold forwardTo
  simp only [Option.pure_def, Option.bind_eq_bind, Option.bind_eq_some_iff, Option.some.injEq,
    eq_comm (a := change)]

/-- What the pattern of a product and a sum matches.  The product is either operand of the sum. -/
theorem Pattern.matches?_productAndSum {c : Computations} {output : String} {found : MatchState}
    (h : View.productAndSum.matches? c output = some found) :
    ∃ i m y z j product a b, c.producer? output = some (i, m) ∧ m.isOperator "Add" = true ∧
      (operands m = [y, z] ∨ operands m = [z, y]) ∧ c.producer? y = some (j, product) ∧
      product.isOperator "MatMul" = true ∧ operands product = [a, b] ∧
      found.node? "matmul" = some j ∧ found.value? "a" = some a ∧ found.value? "b" = some b ∧
      found.value? "c" = some z := by
  rcases matches?_describes h with @⟨_, _, _, _, i, m, _, hprod, hop, hdomain, order, described, -⟩
  obtain _ | ⟨hproduct, _ | ⟨hsummand, _ | _⟩⟩ := described
  rcases hproduct with @⟨_, _, _, y, j, product, _, hprod', hop', hdomain', order', described', bound⟩
  rcases hsummand with _ | _ | ⟨hz, -⟩
  obtain _ | ⟨ha, _ | ⟨hb, _ | _⟩⟩ := described'
  rcases ha with _ | _ | ⟨ha, -⟩
  rcases hb with _ | _ | ⟨hb, -⟩
  have key := node?_of_matches? (by decide) (by decide) (by decide) h (by decide) (bound _ rfl)
  refine ⟨i, m, _, _, j, product, _, _, hprod, Node.isOperator_iff.2 ⟨hop, hdomain⟩, ?_, hprod',
    Node.isOperator_iff.2 ⟨hop', hdomain'⟩, ?_, key, ha, hb, hz⟩
  · rcases order with order | ⟨-, -, order⟩
    · exact .inl order.symm
    · exact .inr (List.reverse_eq_iff.1 order.symm)
  · rcases order' with order' | ⟨commutes, -⟩
    · exact order'.symm
    · cases commutes

namespace View

/-! ## Nodes that are left out -/

/-- When the type that a node converts to is known. -/
theorem castTarget?_eq_some {type : ElementType} (h : v.castTarget? n = some type) :
    (n.isOperator "Cast" = true ∧ ∃ code, n.attribute? "to" = some (.int code) ∧
        ElementType.ofCode? code.toInt32 = some type) ∨
      (n.isOperator "CastLike" = true ∧ ∃ z, n.input? 1 = some z ∧ v.type? z = some type) := by
  unfold castTarget? at h
  split at h
  · rename_i hop
    split at h
    · rename_i code hattr
      exact .inl ⟨hop, code, hattr, h⟩
    · cases h
  · split at h
    · rename_i hop
      obtain ⟨z, hz, htype⟩ := Option.bind_eq_some_iff.1 h
      exact .inr ⟨hop, z, hz, htype⟩
    · cases h

theorem eliminateNopCast_eq_some (h : v.eliminateNopCast n = some change) :
    ∃ x type, n.input? 0 = some x ∧ v.type? x = some type ∧ v.castTarget? n = some type ∧
      n.forwardTo x = some change := by
  unfold eliminateNopCast at h
  simp only [Option.bind_eq_bind, Option.bind_eq_some_iff] at h
  obtain ⟨x, hx, type, htype, target, htarget, h⟩ := h
  split at h
  · rename_i same
    subst same
    exact ⟨x, type, hx, htype, htarget, h⟩
  · cases h

theorem eliminateSameShape_eq_some {opType : String}
    (h : v.eliminateSameShape opType n = some change) :
    ∃ x y dims, n.isOperator opType = true ∧ n.input? 0 = some x ∧ n.outputs.head? = some y ∧
      v.knownShape? x = some dims ∧ v.knownShape? y = some dims ∧ n.forwardTo x = some change := by
  unfold eliminateSameShape at h
  simp only [Option.bind_eq_bind, Option.bind_eq_some_iff] at h
  obtain ⟨x, hx, dims, hdims, y, hy, dims', hdims', h⟩ := h
  split at h
  · rename_i conditions
    rw [Bool.and_eq_true, decide_eq_true_iff] at conditions
    obtain ⟨hop, rfl⟩ := conditions
    exact ⟨x, y, dims, hop, hx, hy, hdims, hdims', h⟩
  · cases h

theorem eliminateNopTranspose_eq_some (h : v.eliminateNopTranspose n = some change) :
    ∃ x perm, n.isOperator "Transpose" = true ∧ n.input? 0 = some x ∧
      v.permutation? n = some perm ∧ perm = List.range perm.length ∧ n.forwardTo x = some change := by
  unfold eliminateNopTranspose at h
  split at h
  · rename_i hop
    simp only [Option.bind_eq_bind, Option.bind_eq_some_iff] at h
    obtain ⟨perm, hperm, h⟩ := h
    split at h
    · rename_i range
      obtain ⟨x, hx, h⟩ := Option.bind_eq_some_iff.1 h
      exact ⟨x, perm, hop, hx, hperm, range, h⟩
    · cases h
  · cases h

theorem eliminateNopArithmetic_eq_some (h : v.eliminateNopArithmetic n = some change) :
    ∃ y p found x type dims, n.isDefaultDomain = true ∧ n.opType ∈ ["Add", "Sub", "Mul", "Div"] ∧
      n.outputs.head? = some y ∧ p ∈ neutralPatterns ∧
      p.matches? v.computations y = some found ∧ found.value? "x" = some x ∧
      v.type? x = some type ∧ v.type? y = some type ∧
      v.knownShape? x = some dims ∧ v.knownShape? y = some dims ∧ n.forwardTo x = some change := by
  unfold eliminateNopArithmetic at h
  split at h
  · rename_i hop
    rw [Bool.and_eq_true, List.contains_iff_mem] at hop
    simp only [Option.bind_eq_bind, Option.bind_eq_some_iff] at h
    obtain ⟨y, hy, found, hfound, x, hx, type, htype, dims, hdims, dims', hdims', h⟩ := h
    obtain ⟨p, hp, hm⟩ := List.exists_of_findSome?_eq_some hfound
    split at h
    · rename_i conditions
      rw [Bool.and_eq_true, decide_eq_true_iff, decide_eq_true_iff] at conditions
      obtain ⟨rfl, htype'⟩ := conditions
      exact ⟨y, p, found, x, type, dims, hop.1, hop.2, hy, hp, hm, hx, htype, htype', hdims, hdims', h⟩
    · cases h
  · cases h

/-! ## Two nodes in a row -/

theorem fuseTransposes_eq_some (h : v.fuseTransposes n = some change) :
    ∃ y i inner x outer first perm, n.input? 0 = some y ∧ v.producer? y = some (i, inner) ∧
      n.isOperator "Transpose" = true ∧ inner.isOperator "Transpose" = true ∧
      v.permutation? n = some outer ∧ v.permutation? inner = some first ∧
      outer.mapM (fun p => first[p]?) = some perm ∧ inner.input? 0 = some x ∧
      change = .replace [(withFirstInput n x).setAttribute "perm"
        (.ints (perm.map fun p => Int64.ofNat p))] [] := by
  unfold fuseTransposes at h
  simp only [Option.bind_eq_bind, Option.bind_eq_some_iff] at h
  obtain ⟨y, hy, ⟨i, inner⟩, hprod, h⟩ := h
  split at h
  · rename_i hops
    simp only [Bool.and_eq_true] at hops
    simp only [Option.bind_eq_some_iff] at h
    obtain ⟨outer, houter, first, hfirst, h⟩ := h
    split at h
    · simp only [Option.bind_eq_some_iff] at h
      obtain ⟨perm, hperm, x, hx, h⟩ := h
      cases h
      exact ⟨y, i, inner, x, outer, first, perm, hy, hprod, hops.1, hops.2, houter, hfirst, hperm,
        hx, rfl⟩
    · cases h
  · cases h

theorem fuseReshapes_eq_some (h : v.fuseReshapes n = some change) :
    ∃ output found x name c xs, n.isOperator "Reshape" = true ∧ n.outputs.head? = some output ∧
      reshapeTwice.matches? v.computations output = some found ∧ found.value? "x" = some x ∧
      found.value? "shape" = some name ∧ v.constant? name = some c ∧ c.int64s? = some xs ∧
      (n.attribute? "allowzero" = some (.int 1) ∨ 0 ∉ xs) ∧
      change = .replace [withFirstInput n x] [] := by
  unfold fuseReshapes at h
  split at h
  · rename_i hop
    simp only [Option.bind_eq_bind, Option.bind_eq_some_iff] at h
    obtain ⟨output, hout, found, hm, x, hx, name, hname, c, hc, xs, hxs, h⟩ := h
    refine ⟨output, found, x, name, c, xs, hop, hout, hm, hx, hname, hc, hxs, ?_⟩
    split at h
    · rename_i flag hattr
      split at h
      · cases h
      · rename_i hzero
        cases h
        refine ⟨?_, rfl⟩
        by_cases hflag : flag = 1
        · exact Or.inl (hflag ▸ hattr)
        · exact Or.inr (by simpa [hflag] using hzero)
    · split at h
      · cases h
      · rename_i hzero
        cases h
        exact ⟨Or.inr (by simpa using hzero), rfl⟩
  · cases h

/-- Axes that are equal when they are sorted name the same dimensions. -/
theorem perm_of_normalizeAxes? {rank : Nat} {axes axes' : List Int} {sorted : List Nat}
    (h : normalizeAxes? rank axes = some sorted) (h' : normalizeAxes? rank axes' = some sorted) :
    ∃ found found', axes.mapM (resolveAxis? rank) = some found ∧
      axes'.mapM (resolveAxis? rank) = some found' ∧ found.Perm found' := by
  obtain ⟨found, hfound, rfl⟩ := Option.map_eq_some_iff.1 h
  obtain ⟨found', hfound', heq⟩ := Option.map_eq_some_iff.1 h'
  have sorts : ∀ l : List Nat, (l.mergeSort (· ≤ ·)).Perm l := fun l => List.mergeSort_perm l _
  exact ⟨found, found', hfound, hfound', (sorts found).symm.trans (heq ▸ sorts found')⟩

/-- One of the nodes inserts the dimensions that the other one removes.  The axes of both are counted in
the larger tensor. -/
theorem fuseSqueezeUnsqueeze_eq_some (h : v.fuseSqueezeUnsqueeze n = some change) :
    ∃ y i inner x outerAxes innerAxes rank found found', n.input? 0 = some y ∧
      v.producer? y = some (i, inner) ∧ inner.input? 0 = some x ∧
      v.integers? n "axes" 1 = some outerAxes ∧ v.integers? inner "axes" 1 = some innerAxes ∧
      v.rank? x = some rank ∧ n.forwardTo x = some change ∧ found.Perm found' ∧
      ((n.isOperator "Squeeze" = true ∧ inner.isOperator "Unsqueeze" = true ∧
          outerAxes.mapM (resolveAxis? (rank + innerAxes.length)) = some found ∧
          innerAxes.mapM (resolveAxis? (rank + innerAxes.length)) = some found') ∨
        (n.isOperator "Unsqueeze" = true ∧ inner.isOperator "Squeeze" = true ∧
          outerAxes.mapM (resolveAxis? rank) = some found ∧
          innerAxes.mapM (resolveAxis? rank) = some found')) := by
  unfold fuseSqueezeUnsqueeze at h
  simp only [Option.bind_eq_bind, Option.bind_eq_some_iff] at h
  obtain ⟨y, hy, ⟨i, inner⟩, hprod, x, hx, h⟩ := h
  split at h
  · rename_i hops
    simp only [Option.bind_eq_some_iff] at h
    obtain ⟨outerAxes, houter, innerAxes, hinner, rank, hrank, sorted, hsorted, sorted', hsorted', h⟩ := h
    split at h
    · rename_i heq
      subst heq
      obtain ⟨found, found', hfound, hfound', perm⟩ := perm_of_normalizeAxes? hsorted hsorted'
      refine ⟨y, i, inner, x, outerAxes, innerAxes, rank, found, found', hy, hprod, hx, houter,
        hinner, hrank, h, perm, ?_⟩
      simp only [Bool.or_eq_true] at hops
      by_cases removes : (n.isOperator "Squeeze" && inner.isOperator "Unsqueeze") = true
      · rw [if_pos removes] at hfound hfound'
        rw [Bool.and_eq_true] at removes
        exact Or.inl ⟨removes.1, removes.2, hfound, hfound'⟩
      · have inserts := hops.resolve_left removes
        rw [if_neg removes] at hfound hfound'
        rw [Bool.and_eq_true] at inserts
        exact Or.inr ⟨inserts.1, inserts.2, hfound, hfound'⟩
    · cases h
  · cases h

/-! ## Convolutions -/

/-- Whether some numbers are what a rule reads for a convolution with given weights and for a
normalization of its result. -/
structure Normalizes (v : View) (n conv : Node) (weightName : String)
    (p : NormalizedNumbers Binary32) : Prop where
  normalization : n.isOperator "BatchNormalization" = true
  convolution : conv.isOperator "Conv" = true
  name : conv.input? 1 = some weightName
  weight : ∃ t, v.constant? weightName = some t ∧ t.array? Binary32 = some p.weight ∧
    t.shape = p.weightShape
  /-- The bias may be missing. -/
  bias : (conv.input? 2).map v.binary32s? = p.bias.map some
  mean : (n.input? 3).bind v.binary32s? = some p.mean
  shift : (n.input? 2).bind v.binary32s? = some p.shift
  factor : ∃ epsilon scale variance, epsilon? n = some epsilon ∧
    (n.input? 1).bind v.binary32s? = some scale ∧ (n.input? 4).bind v.binary32s? = some variance ∧
    p.factor = (scale.zip variance).map fun q => BatchNormalization.factor epsilon q.1 q.2
  perChannel : p.PerChannel

theorem normalizedConv?_eq_some {found : NormalizedConv} (h : v.normalizedConv? n = some found) :
    ∃ result i p, n.input? 0 = some result ∧ v.producer? result = some (i, found.conv) ∧
      v.Normalizes n found.conv found.weightName p ∧ found.weightShape = p.weightShape ∧
      found.scaled = p.fused := by
  unfold normalizedConv? at h
  obtain ⟨plain, h⟩ := Option.ite_none_left_eq_some.1 h
  simp only [Bool.or_eq_true, not_or, Bool.not_eq_true', Bool.not_eq_false] at plain
  obtain ⟨result, hresult, h⟩ := Option.bind_eq_some_iff.1 h
  obtain ⟨⟨i, conv⟩, hprod, h⟩ := Option.bind_eq_some_iff.1 h
  obtain ⟨weightName, hname, h⟩ := Option.bind_eq_some_iff.1 h
  obtain ⟨weight, hweight, h⟩ := Option.bind_eq_some_iff.1 h
  obtain ⟨weights, hweights, h⟩ := Option.bind_eq_some_iff.1 h
  obtain ⟨scaleName, hscale, h⟩ := Option.bind_eq_some_iff.1 h
  obtain ⟨scale, hscale', h⟩ := Option.bind_eq_some_iff.1 h
  obtain ⟨shiftName, hshift, h⟩ := Option.bind_eq_some_iff.1 h
  obtain ⟨shift, hshift', h⟩ := Option.bind_eq_some_iff.1 h
  obtain ⟨meanName, hmean, h⟩ := Option.bind_eq_some_iff.1 h
  obtain ⟨mean, hmean', h⟩ := Option.bind_eq_some_iff.1 h
  obtain ⟨varianceName, hvariance, h⟩ := Option.bind_eq_some_iff.1 h
  obtain ⟨variance, hvariance', h⟩ := Option.bind_eq_some_iff.1 h
  obtain ⟨channels, hchannels, h⟩ := Option.bind_eq_some_iff.1 h
  have head : weight.shape.headD 0 = channels := by
    rw [List.headD_eq_head?_getD, hchannels, Option.getD_some]
  -- The bias of the convolution is read, or it is zero; the rest is the same.
  obtain ⟨given, hgiven, h⟩ : ∃ given : Option (Array Binary32),
      (conv.input? 2).map v.binary32s? = given.map some ∧ (do
        let convBias := given.getD (Array.replicate channels .zero)
        let epsilon ← epsilon? n
        if !conv.isOperator "Conv" || !v.isUsedOnce result || channels = 0 ||
            [scale, shift, mean, variance, convBias].any (fun xs => xs.size ≠ channels) then none
        else
          let factor := (scale.zip variance).map fun p => BatchNormalization.factor epsilon p.1 p.2
          return ({
            conv := conv
            weightName := weightName
            weightShape := weight.shape
            scaled := .fuse (weights.size / channels) weights convBias factor mean shift } :
              NormalizedConv)) = some found := by
    split at h
    · rename_i name hbias
      obtain ⟨b, hb, h⟩ := Option.bind_eq_some_iff.1 h
      exact ⟨some b, by rw [hbias, Option.map_some, hb, Option.map_some], h⟩
    · rename_i hbias
      exact ⟨none, by rw [hbias, Option.map_none, Option.map_none], h⟩
  obtain ⟨epsilon, hepsilon, h⟩ := Option.bind_eq_some_iff.1 h
  obtain ⟨conditions, h⟩ := Option.ite_none_left_eq_some.1 h
  cases h
  simp only [Bool.or_eq_true, not_or, Bool.not_eq_true', Bool.not_eq_false, decide_eq_true_iff,
    List.any_eq_true, not_exists, not_and, not_not, List.forall_mem_cons] at conditions
  obtain ⟨⟨⟨hop, -⟩, nonzero⟩, sScale, sShift, sMean, sVariance, sBias, -⟩ := conditions
  refine ⟨result, i, ⟨weight.shape, weights, given, mean,
    (scale.zip variance).map fun p => BatchNormalization.factor epsilon p.1 p.2, shift⟩, hresult, hprod,
    { normalization := plain.1.1.1
      convolution := hop
      name := hname
      weight := ⟨weight, hweight, hweights, rfl⟩
      bias := hgiven
      mean := Option.bind_eq_some_iff.2 ⟨meanName, hmean, hmean'⟩
      shift := Option.bind_eq_some_iff.2 ⟨shiftName, hshift, hshift'⟩
      factor := ⟨epsilon, scale, variance, hepsilon,
        Option.bind_eq_some_iff.2 ⟨scaleName, hscale, hscale'⟩,
        Option.bind_eq_some_iff.2 ⟨varianceName, hvariance, hvariance'⟩, rfl⟩
      perChannel := by
        refine ⟨head.trans_ne nonzero, ?_, sMean.trans head.symm, ?_, sShift.trans head.symm⟩
        · rintro b rfl
          exact sBias.trans head.symm
        · rw [Array.size_map, Array.size_zip, sScale, sVariance, Nat.min_self]
          exact head.symm }, rfl, ?_⟩
  unfold NormalizedNumbers.fused NormalizedNumbers.channels
  dsimp only
  rw [head]
  rfl

theorem fuseNormalizationIntoConv_eq_some {taken : List String}
    (h : (v.fuseNormalizationIntoConv taken n).2 = some change) :
    ∃ result i conv weightName p x y weight bias, n.input? 0 = some result ∧
      v.producer? result = some (i, conv) ∧ v.Normalizes n conv weightName p ∧
      conv.input? 0 = some x ∧ n.outputs.head? = some y ∧
      weight = freshName taken (weightName ++ "_bn_fused") ∧
      bias = freshName (weight :: taken) (weightName ++ "_bn_fused_bias") ∧
      (v.fuseNormalizationIntoConv taken n).1 = bias :: weight :: taken ∧
      change = .replace [({ conv with inputs := [x, weight, bias], outputs := [y] } : Node)]
        [⟨weight, .ofArray p.weightShape p.fused.weight⟩, ⟨bias, .vector p.fused.bias⟩] := by
  unfold fuseNormalizationIntoConv at h ⊢
  split at h
  · cases h
  · rename_i found hfound
    obtain ⟨x, hx, h⟩ := Option.bind_eq_some_iff.1 h
    obtain ⟨y, hy, h⟩ := Option.bind_eq_some_iff.1 h
    cases h
    obtain ⟨result, i, p, hresult, hprod, numbers, shape, scaled⟩ := normalizedConv?_eq_some hfound
    exact ⟨result, i, found.conv, found.weightName, p, x, y, _, _, hresult, hprod, numbers, hx, hy,
      rfl, rfl, rfl, by rw [← shape, ← scaled]⟩

/-! ## Products and sums -/

theorem fuseProductAndSum_eq_some (h : v.fuseProductAndSum n = some change) :
    ∃ output found j product x y z b c rows inner depth columns,
      n.isOperator "Add" = true ∧ n.outputs.head? = some output ∧
      productAndSum.matches? v.computations output = some found ∧
      found.node? "matmul" = some j ∧ v.graph.nodes[j]? = some product ∧
      found.value? "a" = some x ∧ found.value? "b" = some y ∧ found.value? "c" = some z ∧
      v.constant? y = some b ∧ v.constant? z = some c ∧ v.knownShape? x = some [rows, inner] ∧
      b.shape = [depth, columns] ∧ v.type? x = some .float32 ∧ b.elementType = .float32 ∧
      c.elementType = .float32 ∧ broadcastsToMatrix c.shape rows columns = true ∧
      change = .replace [({
        name := product.name, opType := "Gemm", inputs := [x, y, z],
        outputs := [output] } : Node)] [] := by
  unfold fuseProductAndSum at h
  split at h
  · rename_i hop
    obtain ⟨output, hout, h⟩ := Option.bind_eq_some_iff.1 h
    obtain ⟨found, hm, h⟩ := Option.bind_eq_some_iff.1 h
    obtain ⟨j, hj, h⟩ := Option.bind_eq_some_iff.1 h
    obtain ⟨product, hproduct, h⟩ := Option.bind_eq_some_iff.1 h
    obtain ⟨x, hx, h⟩ := Option.bind_eq_some_iff.1 h
    obtain ⟨y, hy, h⟩ := Option.bind_eq_some_iff.1 h
    obtain ⟨z, hz, h⟩ := Option.bind_eq_some_iff.1 h
    obtain ⟨b, hb, h⟩ := Option.bind_eq_some_iff.1 h
    obtain ⟨c, hc, h⟩ := Option.bind_eq_some_iff.1 h
    obtain ⟨dims, hdims, h⟩ := Option.bind_eq_some_iff.1 h
    split at h
    · rename_i rows inner depth columns hshape
      obtain ⟨first, -, h⟩ := Option.bind_eq_some_iff.1 h
      split at h
      · rename_i conditions
        simp only [Bool.and_eq_true, decide_eq_true_iff] at conditions
        obtain ⟨⟨⟨⟨-, type⟩, type'⟩, type''⟩, fits⟩ := conditions
        cases h
        exact ⟨output, found, j, product, x, y, z, b, c, rows, inner, depth, columns, hop, hout, hm,
          hj, hproduct, hx, hy, hz, hb, hc, hdims, hshape, type, type', type'', fits, rfl⟩
      · cases h
    · cases h
  · cases h

end View
end TensorGraph
