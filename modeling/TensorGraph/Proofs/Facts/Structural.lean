import TensorGraph.Operator.Kernel
import TensorGraph.Proofs.Facts.Rearrange
import TensorGraph.Proofs.Operator.Layout
import TensorGraph.Proofs.Operator.Slice

/-!
# Rules for structural operators

Input:

* an operator that moves elements, gives them another shape or combines them along axes, and facts about
  its inputs that are true when the names in them have certain values;
* sizes below half the range of integers, from which on the end of a region stands for the end of a
  dimension.

A region is cut out of one dimension after the other, by the operator and by the rule alike, so what one
cut preserves (`holds_regionDim`) is preserved by all of them (`foldlM_regionDim`).  Along the axis at which
tensors are joined their dimensions are added; the others they share (`concatDims_eq_ok`).

Main result:

* `Kernel.infer_holds_of_isStructural`: where the operator does not fail, the rule gives a type, a rank and
  dimensions that hold of its output.
-/

namespace TensorGraph

variable {σ : String → Int} {fs : InputFacts} {inputs : Inputs} {t out : Tensor}

/-- A bound of all sizes is one of the size at a place, also where there is none. -/
theorem natCast_getD_le {shape : List Nat} {bound : Int} (h : ∀ n ∈ shape, (n : Int) ≤ bound)
    (nonneg : 0 ≤ bound) (i : Nat) : ((shape.getD i 0 : Nat) : Int) ≤ bound := by
  rw [List.getD_eq_getElem?_getD]
  cases hn : shape[i]? with
  | none => exact nonneg
  | some n => exact h n (List.mem_of_getElem? hn)

/-! ## Regions -/

section

variable {size : SizeExpr} {d : Dim} {n : Nat} {start stop step : Int} {r : SliceRange}

theorem divideUp_one (a : Nat) : divideUp a 1 = a := by
  unfold divideUp
  omega

/-- From a position that counts from the front on, one after the other, a region has the positions between
the two bounds, each of which is held to the dimension. -/
theorem count_of_resolveRange_one (h : resolveRange n start stop 1 = .ok r) (front : 0 ≤ start) :
    (r.count : Int) = max 0 (min (n : Int) (if stop < 0 then stop + n else stop) - min (n : Int) start) := by
  unfold resolveRange at h
  cases h
  dsimp only
  rw [Int.toNat_one, divideUp_one, if_neg (not_lt.2 front)]
  split <;> split <;> omega

/-- Bounds from half the range of integers on are past the end of all sizes. -/
theorem holds_symbolicSize (exact_size : size.Exact σ) (value : size.eval σ = n)
    (range : (n : Int) ≤ Int64.maxValue.toInt / 2) (fits : Fits64 start)
    (h : resolveRange n start stop step = .ok r) :
    (Slice.symbolicSize size start stop step).Holds σ r.count := by
  have greatest : Int64.maxValue.toInt = 9223372036854775807 := by rfl
  have least : Int64.minValue.toInt = -9223372036854775808 := by rfl
  unfold Slice.symbolicSize
  dsimp only
  split
  · trivial
  · rename_i plain
    obtain ⟨one, front⟩ := not_or.1 plain
    obtain rfl : step = 1 := Decidable.not_not.1 one
    have count := count_of_resolveRange_one h (not_lt.1 front)
    by_cases toEnd : Int64.maxValue.toInt / 2 ≤ stop
    · have stop_front : ¬ stop < 0 := by omega
      rw [if_neg stop_front] at count
      by_cases whole : start = 0
      · rw [if_pos ⟨whole, toEnd⟩]
        refine Dim.holds_ofExpr exact_size ?_
        rw [value, count]
        omega
      · rw [if_neg fun h => whole h.1, if_pos toEnd]
        have exact_rest : (size.minus (.const start)).Exact σ := SizeExpr.exact_simplify _
        have rest : (size.minus (.const start)).eval σ = n - start := by
          rw [SizeExpr.eval_minus exact_size (SizeExpr.exact_const start)] <;>
            rw [value, SizeExpr.eval]
          unfold Fits64 at fits ⊢
          omega
        refine Dim.holds_ofExpr (SizeExpr.exact_simplify _) ?_
        rw [SizeExpr.eval_larger exact_rest (SizeExpr.exact_const 0), rest, count, SizeExpr.eval]
        omega
    · rw [if_neg fun h => toEnd h.2, if_neg toEnd]
      by_cases between : start ≤ stop
      · rw [if_pos between]
        have exact_min : ∀ v, (size.smaller (.const v)).Exact σ := fun _ => SizeExpr.exact_simplify _
        have least_of : ∀ v, (size.smaller (.const v)).eval σ = min (n : Int) v := by
          intro v
          rw [SizeExpr.eval_smaller exact_size (SizeExpr.exact_const v), value, SizeExpr.eval]
        refine Dim.holds_ofExpr (SizeExpr.exact_simplify _) ?_
        rw [SizeExpr.eval_minus (exact_min stop) (exact_min start)] <;> rw [least_of, least_of]
        · rw [count, if_neg (by omega)]
          omega
        · unfold Fits64 at fits ⊢
          omega
      · rw [if_neg between]
        trivial

/-- The rule for a dimension holds of the number of positions in a region of it. -/
theorem holds_regionDim (h : d.Holds σ n) (exact_d : d.Exact σ)
    (range : (n : Int) ≤ Int64.maxValue.toInt / 2) (fits : Fits64 start)
    (hr : resolveRange n start stop step = .ok r) :
    ∃ d', Slice.regionDim d start stop step = .ok d' ∧ d'.Holds σ r.count := by
  cases d with
  | fixed m =>
      obtain rfl : m = n := h
      refine ⟨.fixed r.count, ?_, rfl⟩
      unfold Slice.regionDim
      dsimp only
      rw [hr]
      rfl
  | symbolic e => exact ⟨_, rfl, holds_symbolicSize (exact_d e rfl) h range fits hr⟩
  | unknown => exact ⟨.unknown, rfl, trivial⟩

/-- Cutting one dimension after the other keeps that the dimensions hold of the region so far. -/
theorem foldlM_regionDim {dims ds : List Dim} {shape : List Nat} {ranges out : List SliceRange}
    {entries : List (Nat × Int × Int × Int)} (h : Dim.AllHold σ dims shape)
    (exact_dims : ∀ d ∈ dims, d.Exact σ) (range : ∀ n ∈ shape, (n : Int) ≤ Int64.maxValue.toInt / 2)
    (fits : ∀ e ∈ entries, Fits64 e.2.1) (sofar : Dim.AllHold σ ds (ranges.map SliceRange.count))
    (hout : entries.foldlM (fun ranges (axis, start, stop, step) => do
      return ranges.set axis (← resolveRange (shape.getD axis 0) start stop step)) ranges = .ok out) :
    ∃ rs, entries.foldlM (fun out (axis, start, stop, step) => do
        return out.set axis (← Slice.regionDim (dims.getD axis .unknown) start stop step)) ds = .ok rs ∧
      Dim.AllHold σ rs (out.map SliceRange.count) := by
  induction entries generalizing ds ranges with
  | nil =>
      cases hout
      exact ⟨ds, rfl, sofar⟩
  | cons e rest ih =>
      obtain ⟨axis, start, stop, step⟩ := e
      rw [List.forall_mem_cons] at fits
      rw [List.foldlM_cons] at hout
      obtain ⟨ranges', hset, hout⟩ := bind_eq_ok_iff.1 hout
      obtain ⟨r, hr, hset⟩ := bind_eq_ok_iff.1 hset
      cases hset
      have bound := natCast_getD_le range (by decide) axis
      obtain ⟨d, hd, holds⟩ := holds_regionDim (Dim.holds_getD h axis 0)
        (Dim.exact_getD exact_dims axis) bound fits.1 hr
      have cut : Dim.AllHold σ (ds.set axis d) ((ranges.set axis r).map SliceRange.count) := by
        rw [List.map_set]
        exact Dim.allHold_set sofar holds
      obtain ⟨rs, hrs, all⟩ := ih fits.2 cut hout
      refine ⟨rs, ?_, all⟩
      rw [List.foldlM_cons]
      simp only [hd, bind, Except.bind, pure, Except.pure]
      exact hrs

end

namespace Slice

variable {s : Slice} {b : SliceBounds}

/-- The elements of an input that are known, or that it is omitted, is what an operator gets. -/
theorem ints?_of_knownInput (facts : fs.TrueOf σ inputs) {i : Nat} {known : Option (List Int)}
    (h : knownInput fs i = some known) : inputs.ints? i = .ok known := by
  unfold knownInput at h
  cases hf : fs.get? i with
  | none =>
      rw [hf] at h
      cases h
      exact facts.ints?_of_none hf
  | some f =>
      rw [hf] at h
      obtain ⟨vs, hvs, rfl⟩ := Option.map_eq_some_iff.1 h
      exact facts.ints?_of_integers? hf hvs

/-- The bounds that are known are those of the region. -/
theorem bounds_of_knownBounds (facts : fs.TrueOf σ inputs) (h : s.knownBounds fs = some b) :
    s.bounds inputs = .ok b := by
  have made : ∀ {r : OpResult SliceBounds}, r.toOption = some b → r = .ok b := by
    intro r hr
    cases r with
    | ok b' =>
        cases hr
        rfl
    | error e => cases hr
  have given : ∀ {i : Nat} {vs : List Int}, knownInput fs i = some (some vs) →
      inputs.requireInts i = .ok vs := by
    intro i vs hvs
    unfold Inputs.requireInts
    rw [ints?_of_knownInput facts hvs]
    rfl
  unfold knownBounds at h
  unfold bounds
  split at h
  · exact made h
  · simp only [Option.bind_eq_bind, Option.bind_eq_some_iff] at h
    obtain ⟨_, hstarts, starts, rfl, _, hstops, stops, rfl, axes, haxes, steps, hsteps, h⟩ := h
    simp only [given hstarts, given hstops, ints?_of_knownInput facts haxes,
      ints?_of_knownInput facts hsteps, bind, Except.bind]
    exact made h

/-- Starts that are elements of an input have 64 bits. -/
theorem fits64_of_intList {vs : List Int} (h : t.intList = .ok vs) : ∀ v ∈ vs, Fits64 v := by
  obtain ⟨xs, -, rfl⟩ := map_eq_ok_iff.1 h
  intro v hv
  obtain ⟨x, -, rfl⟩ := List.mem_map.1 hv
  exact ⟨Int64.minValue_le_toInt x, Int64.toInt_le x⟩

theorem starts_of_make {starts stops : List Int} {axes steps : Option (List Int)}
    (h : SliceBounds.make starts stops axes steps = .ok b) : b.starts = starts := by
  unfold SliceBounds.make at h
  dsimp only at h
  split at h
  · cases h
  · cases h
    rfl

theorem fits64_of_bounds (fits : ∀ starts, s.starts = some starts → ∀ v ∈ starts, Fits64 v)
    (h : s.bounds inputs = .ok b) : ∀ v ∈ b.starts, Fits64 v := by
  unfold bounds at h
  split at h
  · rename_i starts stops hstarts hstops
    rw [starts_of_make h]
    exact fits starts hstarts
  · obtain ⟨starts, hstarts, h⟩ := bind_eq_ok_iff.1 h
    obtain ⟨stops, -, h⟩ := bind_eq_ok_iff.1 h
    obtain ⟨axes, -, h⟩ := bind_eq_ok_iff.1 h
    obtain ⟨steps, -, h⟩ := bind_eq_ok_iff.1 h
    obtain ⟨u, -, hints⟩ := Inputs.requireInts_eq_ok_iff.1 hstarts
    rw [starts_of_make h]
    exact fits64_of_intList hints

/-- The known elements of a vector have known elements in a region of it. -/
theorem exists_regionValues {values : List SizeExpr} {n : Nat} {ranges : List SliceRange}
    (length : values.length = n) (h : b.ranges [n] = .ok ranges) :
    ∃ vs, regionValues b values = .ok vs := by
  unfold regionValues
  rw [length, h]
  simp only [OpResult.toFacts_ok, bind, Except.bind]
  split
  · exact ⟨_, rfl⟩
  · exact ⟨none, rfl⟩

/-- The dimensions of a region are those of its ranges. -/
theorem exists_regionDims {dims : List Dim} {shape : List Nat} {ranges : List SliceRange}
    (h : Dim.AllHold σ dims shape) (exact_dims : ∀ d ∈ dims, d.Exact σ)
    (range : ∀ n ∈ shape, (n : Int) ≤ Int64.maxValue.toInt / 2) (fits : ∀ v ∈ b.starts, Fits64 v)
    (hranges : b.ranges shape = .ok ranges) :
    ∃ entries rs, b.entries shape.length = .ok entries ∧
      entries.foldlM (fun out (axis, start, stop, step) => do
        return out.set axis (← regionDim (dims.getD axis .unknown) start stop step)) dims = .ok rs ∧
      Dim.AllHold σ rs (ranges.map SliceRange.count) := by
  obtain ⟨entries, hentries, hranges⟩ := bind_eq_ok_iff.1 hranges
  have fits_entries : ∀ e ∈ entries, Fits64 e.2.1 := by
    obtain ⟨axes, -, rfl⟩ := SliceBounds.entries_eq_ok hentries
    intro e he
    obtain ⟨j, -, hj, -⟩ := SliceBounds.mem_entries_iff.1 he
    exact fits _ (List.mem_of_getElem? hj)
  have whole : (shape.map fun n => ({ start := 0, count := n, step := 1 } : SliceRange)).map
      SliceRange.count = shape := by
    simp [Function.comp_def]
  obtain ⟨rs, hrs, region⟩ := foldlM_regionDim h exact_dims range fits_entries
    (by rwa [whole]) hranges
  exact ⟨entries, rs, hentries, hrs, region⟩

theorem infer_holds (facts : fs.TrueOf σ inputs)
    (fits : ∀ starts, s.starts = some starts → ∀ v ∈ starts, Fits64 v)
    (counted : ∀ t, inputs.get? 0 = some t → t.Counted)
    (range : ∀ t, inputs.get? 0 = some t → ∀ n ∈ t.shape, (n : Int) ≤ Int64.maxValue.toInt / 2)
    (h : s.run inputs = .ok out) : RuleHolds σ (s.infer fs) out := by
  obtain ⟨t, ht, h⟩ := bind_eq_ok_iff.1 h
  obtain ⟨b, hb, h⟩ := bind_eq_ok_iff.1 h
  obtain ⟨ranges, hranges, h⟩ := bind_eq_ok_iff.1 h
  obtain ⟨input, hinput, holds, simplifies⟩ := facts.require ht
  have takes : out.Takes t (ranges.map SliceRange.count) := takes_of_takeTensor h
  have hget := Inputs.require_eq_ok_iff.1 ht
  unfold infer
  cases hshape : input.shape with
  | none =>
      simp only [hinput, hshape, Facts.rank?, Option.map_none, bind, Except.bind]
      exact takes.ruleHolds holds rfl nofun
  | some dims =>
      have all := holds.shape_eq dims hshape
      cases hknown : s.knownBounds fs with
      | none =>
          simp only [hinput, hshape, Facts.rank?, Option.map_some, bind, Except.bind]
          refine takes.ruleHolds holds rfl fun ds hds => ?_
          cases hds
          refine Dim.allHold_replicate_unknown ?_
          rw [List.length_map, Dim.length_of_allHold all]
          exact (SliceBounds.within_of_ranges (even_of_bounds hb) hranges).length_eq
      | some b' =>
          obtain rfl : b = b' := Except.ok.inj (hb.symm.trans (bounds_of_knownBounds facts hknown))
          obtain ⟨entries, rs, hentries, hrs, region⟩ := exists_regionDims all
            (simplifies.shape dims hshape) (range t hget) (fits64_of_bounds fits hb) hranges
          have rank : dims.length = t.shape.length := Dim.length_of_allHold all
          rw [bind_of_eq_ok hinput]
          simp only [hshape, rank, hentries, OpResult.toFacts_ok]
          rw [bind_of_eq_ok rfl, bind_of_eq_ok hrs]
          have known : ∀ values, RuleHolds σ
              (.ok [{ type := input.type, shape := some rs, values := values }]) out := by
            refine fun values => takes.ruleHolds holds rfl fun ds hds => ?_
            cases hds
            exact region
          split
          · rename_i values size hvalues
            have shape : t.shape = [size] := Dim.eq_of_sizes? all rfl
            have length : values.length = size := by
              have ints := holds.intList_eq hvalues
              have count := (counted t hget).length_of_intList ints
              rwa [List.length_map, shape, elementCount_cons, elementCount_nil, Nat.mul_one] at count
            rw [shape] at hranges
            obtain ⟨vs, hvs⟩ := exists_regionValues length hranges
            rw [hvs]
            exact known vs
          · exact known none

end Slice

/-! ## Joined tensors -/

/-- Lists that agree without the entry at a place have the same entries at all other places. -/
theorem getElem?_of_eraseIdx_eq {α : Type} {xs ys : List α} {i j : Nat}
    (h : xs.eraseIdx i = ys.eraseIdx i) (hj : j ≠ i) : xs[j]? = ys[j]? := by
  rcases Nat.lt_or_gt_of_ne hj with before | after
  · have same := congrArg (fun l : List α => l[j]?) h
    simpa [List.getElem?_eraseIdx, before] using same
  · obtain ⟨k, rfl⟩ : ∃ k, j = k + 1 := ⟨j - 1, by omega⟩
    have same := congrArg (fun l : List α => l[k]?) h
    simpa [List.getElem?_eraseIdx, show ¬ k < i by omega] using same

theorem ensures_concatAt_takes (α : Type) [Element α] (i : Nat) (first : Tensor) (rest : List Tensor) :
    Ensures (concatAt α i (first :: rest)) fun u =>
      (∀ t ∈ first :: rest, t.rank = first.rank ∧ t.shape.eraseIdx i = first.shape.eraseIdx i) ∧
      ∃ xs : Array α,
        u = .ofArray (first.shape.set i ((first :: rest).map fun t => t.shape.getD i 0).sum) xs := by
  intro u h
  obtain ⟨same, parts, -, rfl⟩ := concatAt_eq_ok_iff.1 h
  refine ⟨same, ?_⟩
  rw [List.sum_eq_foldl, List.foldl_map]
  exact ⟨_, rfl⟩

/-- Tensors that are joined have the same type, and the same sizes apart from the axis. -/
theorem runConcat_eq_ok {axis : Int} (h : runConcat axis inputs = .ok out) :
    ∃ first rest i, inputs.present = first :: rest ∧ resolveAxis first.rank axis = .ok i ∧
      (∀ t ∈ first :: rest, t.elementType = first.elementType ∧ t.rank = first.rank ∧
        ∀ j, j ≠ i → t.shape[j]? = first.shape[j]?) ∧
      out.Takes first (first.shape.set i ((first :: rest).map fun t => t.shape.getD i 0).sum) := by
  unfold runConcat at h
  cases hpresent : inputs.present with
  | nil => simp [hpresent] at h
  | cons first rest =>
      rw [hpresent] at h
      dsimp only at h
      split at h
      · cases h
      · rename_i types
        obtain ⟨i, hi, h⟩ := bind_eq_ok_iff.1 h
        have same := Ensures.dispatch (fun α _ _ => (ensures_concatAt_takes α i first rest).mono
          fun _ h => h.1) out h
        refine ⟨first, rest, i, rfl, hi, fun t ht => ⟨?_, (same t ht).1, ?_⟩, ?_⟩
        · rcases List.mem_cons.1 ht with rfl | ht
          · rfl
          · simp only [Bool.not_eq_true, List.any_eq_false, decide_eq_true_eq, not_not] at types
            exact types t ht
        · exact fun j => getElem?_of_eraseIdx_eq (same t ht).2
        · exact takes_of_dispatch (fun α _ => (ensures_concatAt_takes α i first rest).mono
            fun _ h => h.2) h

/-- Whether the constants in the dimensions that are joined stay in range together. -/
def JoinsInRange (axis : Int) (fs : InputFacts) : Prop :=
  ∀ shapes i sizes, (fs.filterMap fun x => x).mapM Facts.shape = some shapes →
    resolveAxis? (shapes.headD []).length axis = some i →
      (shapes.map fun s => s.getD i .unknown).mapM Dim.expr? = some sizes →
        (sizes.map SizeExpr.constantWeight).sum ≤ Int64.maxValue.toInt

/-- The facts about the inputs that are there hold of these inputs. -/
theorem InputFacts.TrueOf.forall₂_present (facts : fs.TrueOf σ inputs) :
    List.Forall₂ (fun f t => Facts.Holds σ f t ∧ f.Exact σ) (fs.filterMap fun x => x)
      inputs.present := by
  obtain ⟨holds, simplifies⟩ := facts
  unfold Inputs.present
  induction holds with
  | nil => exact .nil
  | @cons o o' fs inputs first _ ih =>
      have others := ih fun f hf => simplifies f (List.mem_cons_of_mem _ hf)
      cases first with
      | none => exact others
      | some h => exact .cons ⟨h, simplifies _ List.mem_cons_self⟩ others

theorem Inputs.present_of_get?_zero (h : inputs.get? 0 = some t) :
    ∃ rest, inputs.present = t :: rest := by
  cases inputs with
  | nil => cases h
  | cons o rest =>
      cases o with
      | none => cases h
      | some t' =>
          obtain rfl : t' = t := by simpa [Inputs.get?] using h
          exact ⟨rest.filterMap fun x => x, rfl⟩

section

variable {fs' : List Facts} {ts : List Tensor} {shapes : List (List Dim)}

/-- Whether the dimensions of a tensor hold of its shape and are simplified exactly. -/
def Shaped (σ : String → Int) (dims : List Dim) (t : Tensor) : Prop :=
  Dim.AllHold σ dims t.shape ∧ ∀ d ∈ dims, d.Exact σ

theorem forall₂_shaped (h : List.Forall₂ (fun f t => Facts.Holds σ f t ∧ f.Exact σ) fs' ts)
    (hs : fs'.mapM Facts.shape = some shapes) : List.Forall₂ (Shaped σ) shapes ts := by
  have known : List.Forall₂ (fun f s => Facts.shape f = some s) fs' shapes :=
    forall₂_of_mapM_eq_some hs
  clear hs
  induction known generalizing ts with
  | nil =>
      cases h
      exact .nil
  | @cons f s fs' shapes hf _ ih =>
      obtain ⟨t, ts, ⟨holds, simplifies⟩, others, rfl⟩ := List.forall₂_cons_left_iff.1 h
      exact .cons ⟨holds.shape_eq s hf, simplifies.shape s hf⟩ (ih others)

theorem length_headD_of_shaped {first : Tensor} {rest : List Tensor}
    (h : List.Forall₂ (Shaped σ) shapes (first :: rest)) :
    (shapes.headD []).length = first.rank := by
  obtain ⟨s, shapes', both, -, rfl⟩ := List.forall₂_cons_right_iff.1 h
  exact Dim.length_of_allHold both.1

/-- The dimensions at a place of some shapes hold of the sizes there. -/
theorem allHold_column (h : List.Forall₂ (Shaped σ) shapes ts) (j : Nat) :
    Dim.AllHold σ (shapes.map fun s => s.getD j .unknown) (ts.map fun t => t.shape.getD j 0) := by
  rw [Dim.allHold_iff, List.forall₂_map_left_iff, List.forall₂_map_right_iff]
  exact h.imp fun s t both => Dim.holds_getD both.1 j 0

theorem exact_column (h : List.Forall₂ (Shaped σ) shapes ts) (j : Nat) :
    ∀ d ∈ shapes.map fun s => s.getD j .unknown, d.Exact σ := by
  intro d hd
  obtain ⟨s, hs, rfl⟩ := List.mem_map.1 hd
  obtain ⟨t, -, both⟩ := exists_right_of_forall₂ h hs
  exact Dim.exact_getD both.2 j

/-- The dimensions of joined tensors hold of the joined shape: the sum of the dimensions along the axis, and
the dimensions that all tensors share. -/
theorem concatDims_eq_ok {first : Tensor} {rest : List Tensor} {axis : Int} {i : Nat}
    (h : List.Forall₂ (Shaped σ) shapes (first :: rest)) (hi : resolveAxis first.rank axis = .ok i)
    (same : ∀ t ∈ first :: rest, t.rank = first.rank ∧ ∀ j, j ≠ i → t.shape[j]? = first.shape[j]?)
    (range : ∀ t ∈ first :: rest, ∀ n ∈ t.shape, (n : Int) ≤ Int64.maxValue.toInt)
    (sum : ∀ sizes, (shapes.map fun s => s.getD i .unknown).mapM Dim.expr? = some sizes →
      (sizes.map SizeExpr.constantWeight).sum ≤ Int64.maxValue.toInt) :
    ∃ ds, concatDims axis shapes = .ok ds ∧
      Dim.AllHold σ ds (first.shape.set i ((first :: rest).map fun t => t.shape.getD i 0).sum) := by
  have ranks : ∀ s ∈ shapes, s.length = first.rank := by
    intro s hs
    obtain ⟨t, ht, both⟩ := exists_right_of_forall₂ h hs
    exact (Dim.length_of_allHold both.1).trans (same t ht).1
  have rank : (shapes.headD []).length = first.rank := length_headD_of_shaped h
  have alike : (shapes.any fun s => s.length ≠ (shapes.headD []).length) = false := by
    rw [List.any_eq_false, rank]
    intro s hs
    simp [ranks s hs]
  unfold concatDims
  dsimp only
  rw [alike, rank, resolveFactsAxis_of_resolveAxis hi]
  refine ⟨_, rfl, ?_⟩
  rw [Dim.allHold_iff_getElem?]
  constructor
  · simp [Tensor.rank]
  · intro j d n hd hn
    obtain ⟨k, hk, rfl⟩ := Option.map_eq_some_iff.1 ((List.getElem?_map ..).symm.trans hd)
    obtain ⟨-, rfl⟩ := List.getElem?_eq_some_iff.1 hk
    rw [List.getElem_range]
    by_cases along : j = i
    · subst along
      rw [if_pos rfl]
      obtain ⟨bound, rfl⟩ := List.getElem?_eq_some_iff.1 hn
      rw [List.getElem_set_self]
      refine Dim.holds_dimsSum (allHold_column h j) (exact_column h j) ?_ sum
      intro m hm
      obtain ⟨t, ht, rfl⟩ := List.mem_map.1 hm
      exact natCast_getD_le (range t ht) (by decide) j
    · rw [if_neg along]
      rw [List.getElem?_set_ne (Ne.symm along)] at hn
      refine Dim.holds_sharedDim fun d hd => ?_
      obtain ⟨s, hs, rfl⟩ := List.mem_map.1 hd
      obtain ⟨t, ht, both⟩ := exists_right_of_forall₂ h hs
      have dim := Dim.holds_getD both.1 j 0
      rwa [List.getD_eq_getElem?_getD, (same t ht).2 j along, hn] at dim

end

theorem inferConcat_holds (facts : fs.TrueOf σ inputs) {axis : Int}
    (present : ∃ t, inputs.get? 0 = some t)
    (range : ∀ t, some t ∈ inputs → ∀ n ∈ t.shape, (n : Int) ≤ Int64.maxValue.toInt)
    (joins : JoinsInRange axis fs) (h : runConcat axis inputs = .ok out) :
    RuleHolds σ (inferConcat axis fs) out := by
  obtain ⟨first, rest, i, hpresent, hi, same, takes⟩ := runConcat_eq_ok h
  obtain ⟨t, ht⟩ := present
  obtain rfl : t = first := by
    obtain ⟨rest', hrest'⟩ := Inputs.present_of_get?_zero ht
    exact (List.cons.inj (hrest'.symm.trans hpresent)).1
  obtain ⟨input, hinput, holds, -⟩ := facts.exists_facts ht
  have related := facts.forall₂_present
  rw [hpresent] at related
  have inside : ∀ u ∈ t :: rest, some u ∈ inputs := by
    intro u hu
    rw [← hpresent] at hu
    obtain ⟨o, ho, rfl⟩ := List.mem_filterMap.1 hu
    exact ho
  -- The type that is known of one input is that of all of them.
  have type : ∀ type, (fs.filterMap fun x => x).findSome? Facts.type = some type →
      out.elementType = type := by
    intro type htype
    obtain ⟨f, hf, htype⟩ := List.exists_of_findSome?_eq_some htype
    obtain ⟨u, hu, both⟩ := exists_right_of_forall₂ related hf
    rw [takes.type_eq, ← (same u hu).1]
    exact both.1.type_eq type htype
  unfold inferConcat
  rw [bind_of_eq_ok (InputFacts.require_of_get? hinput)]
  dsimp only
  cases hshapes : (fs.filterMap fun x => x).mapM Facts.shape with
  | none =>
      refine ⟨_, rfl, Facts.holds_withoutValues type fun ds hds => ?_⟩
      obtain ⟨rank, hrank, rfl⟩ := Option.map_eq_some_iff.1 hds
      obtain ⟨dims, hdims, rfl⟩ := Option.map_eq_some_iff.1 hrank
      refine Dim.allHold_replicate_unknown ?_
      rw [takes.shape_eq, List.length_set, Dim.length_of_allHold (holds.shape_eq dims hdims)]
  | some shapes =>
      have shaped := forall₂_shaped related hshapes
      have axis_known : resolveAxis? (shapes.headD []).length axis = some i := by
        rw [length_headD_of_shaped shaped]
        exact orFault_eq_ok_iff.1 hi
      obtain ⟨ds, hds, all⟩ := concatDims_eq_ok shaped hi (fun u hu => (same u hu).2)
        (fun u hu => range u (inside u hu)) fun sizes hsizes => joins shapes i sizes hshapes axis_known hsizes
      dsimp only
      rw [hds]
      refine ⟨_, rfl, Facts.holds_withoutValues type fun ds' hds' => ?_⟩
      cases hds'
      rw [takes.shape_eq]
      exact all

/-! ## All structural operators -/

namespace Kernel

/-- Whether an operator moves elements, gives them another shape, or combines them along axes. -/
def isStructural : Kernel → Bool
  | transpose _ | squeeze _ | unsqueeze _ | flatten _ | slice _ | gather _ | concat _ | tile | expand
  | reduce _ => true
  | _ => false

/-- What the rule of an operator needs besides facts that are true: that the starts of a region have 64
bits, that sizes that are broadcast are positive where they are given by expressions, and that the
constants in dimensions that are joined stay in range. -/
def Needs (σ : String → Int) (fs : InputFacts) : Kernel → Prop
  | slice s => ∀ starts, s.starts = some starts → ∀ v ∈ starts, Fits64 v
  | expand => (∀ f dims, fs.get? 0 = some f → f.shape = some dims →
      ∀ e, .symbolic e ∈ dims → 0 < e.eval σ) ∧
    ∀ f values, fs.get? 1 = some f → f.values = some values →
      ∀ e ∈ values, e.constant? = none → 0 < e.eval σ
  | concat axis => JoinsInRange axis fs
  | _ => True

theorem exists_of_single {r : OpResult Tensor} {outs : List Tensor}
    (h : (do return [← r]) = Except.ok outs) : ∃ out, r = .ok out ∧ outs = [out] := by
  obtain ⟨out, hr, h⟩ := bind_eq_ok_iff.1 h
  cases h
  exact ⟨out, hr, rfl⟩

/-- The rules for structural operators do not fail where the operators do not, and give the type, the rank
and dimensions that hold of the output. -/
theorem infer_holds_of_isStructural {k : Kernel} {chance : Generator} {outputs : Option Nat}
    {outs : List Tensor} (structural : k.isStructural = true) (facts : fs.TrueOf σ inputs)
    (needs : k.Needs σ fs) (present : ∃ t, inputs.get? 0 = some t)
    (counted : ∀ t, inputs.get? 0 = some t → t.Counted)
    (range : ∀ t, some t ∈ inputs → ∀ n ∈ t.shape, (n : Int) ≤ Int64.maxValue.toInt / 2)
    (range' : ∀ u ∈ outs, ∀ n ∈ u.shape, (n : Int) ≤ Int64.maxValue.toInt / 2)
    (h : k.run chance inputs outputs = .ok outs) :
    ∃ out, outs = [out] ∧ RuleHolds σ (k.infer fs) out := by
  have half : Int64.maxValue.toInt / 2 ≤ Int64.maxValue.toInt := by decide
  have mem : ∀ t, inputs.get? 0 = some t → some t ∈ inputs := by
    exact fun t ht => List.mem_of_getElem? (Option.join_eq_some_iff.1 ht)
  have sizes : ∀ t, inputs.get? 0 = some t → ∀ n ∈ t.shape, (n : Int) ≤ Int64.maxValue.toInt := by
    exact fun t ht n hn => (range t (mem t ht) n hn).trans half
  cases k with
  | transpose perm =>
      obtain ⟨out, ran, rfl⟩ := exists_of_single h
      exact ⟨out, rfl, inferTranspose_holds facts ran⟩
  | squeeze axes =>
      obtain ⟨out, ran, rfl⟩ := exists_of_single h
      exact ⟨out, rfl, inferSqueeze_holds facts ran⟩
  | unsqueeze axes =>
      obtain ⟨out, ran, rfl⟩ := exists_of_single h
      exact ⟨out, rfl, inferUnsqueeze_holds facts ran⟩
  | flatten axis =>
      obtain ⟨out, ran, rfl⟩ := exists_of_single h
      have sizes' := fun n hn => (range' out List.mem_cons_self n hn).trans half
      exact ⟨out, rfl, inferFlatten_holds facts sizes sizes' ran⟩
  | slice s =>
      obtain ⟨out, ran, rfl⟩ := exists_of_single h
      exact ⟨out, rfl, s.infer_holds facts needs counted (fun t ht => range t (mem t ht)) ran⟩
  | gather axis =>
      obtain ⟨out, ran, rfl⟩ := exists_of_single h
      exact ⟨out, rfl, inferGather_holds facts ran⟩
  | concat axis =>
      obtain ⟨out, ran, rfl⟩ := exists_of_single h
      have sizes' := fun t ht n hn => (range t ht n hn).trans half
      exact ⟨out, rfl, inferConcat_holds facts present sizes' needs ran⟩
  | tile =>
      obtain ⟨out, ran, rfl⟩ := exists_of_single h
      have sizes' := fun n hn => (range' out List.mem_cons_self n hn).trans half
      exact ⟨out, rfl, inferTile_holds facts sizes sizes' ran⟩
  | expand =>
      obtain ⟨out, ran, rfl⟩ := exists_of_single h
      exact ⟨out, rfl, inferExpand_holds facts needs.1 needs.2 ran⟩
  | reduce r =>
      obtain ⟨out, ran, rfl⟩ := exists_of_single h
      exact ⟨out, rfl, r.infer_holds facts ran⟩
  | _ => cases structural

end Kernel
end TensorGraph
