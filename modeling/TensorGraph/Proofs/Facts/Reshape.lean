import TensorGraph.Proofs.Facts.Inputs
import TensorGraph.Proofs.Operator.Reshape

/-!
# The rule for reshaped tensors

Input:

* a tensor that is reshaped to a target, and facts about both that are true when the names have certain
  values, under which the entries of the target that are not integers are positive.

The dimension that is to be found is a quotient of products.  Symbolic factors of the other dimensions are
cancelled against equal factors of the input, so the product of what is left of the input is that of the
fixed factors and the dimension (`cancelFactors_eq_some`).  The quotient of the integers among these,
which must be exact, times the other factors is the dimension.

Main result:

* `inferReshape_sound`: the rule gives dimensions that hold of the reshaped tensor.
-/

namespace TensorGraph

variable {σ : String → Int} {es left : List SizeExpr} {dims known : List Dim} {shape others : List Nat}

/-! ## Factors -/

/-- Take one more factor apart. -/
def takeFactor (p : Int × SizeExpr) (e : SizeExpr) : Int × SizeExpr :=
  match e with
  | .const v => (p.1 * v, p.2)
  | e => (p.1, p.2.times e)

theorem splitFactors_eq_foldl (es : List SizeExpr) :
    splitFactors es = es.foldl takeFactor (1, .const 1) :=
  rfl

/-- Whether an integer and an expression, which may leave the range, have a product. -/
def HaveProduct (σ : String → Int) (p : Int × SizeExpr) (w : Int) : Prop :=
  ∃ v, Saturates (p.2.eval σ) v ∧ p.2.Exact σ ∧ p.1 * v = w

theorem haveProduct_takeFactor {p : Int × SizeExpr} {e : SizeExpr} {w : Int}
    (h : HaveProduct σ p w) (he : e.Exact σ) : HaveProduct σ (takeFactor p e) (w * e.eval σ) := by
  obtain ⟨v, stands, exact_symbols, rfl⟩ := h
  have other : HaveProduct σ (p.1, p.2.times e) (p.1 * v * e.eval σ) := by
    refine ⟨v * e.eval σ, ?_, SizeExpr.exact_simplify _, by ring⟩
    exact (SizeExpr.saturates_times exact_symbols he).trans (stands.mul (Or.inl rfl))
  unfold takeFactor
  cases e with
  | const c => exact ⟨v, stands, exact_symbols, by rw [SizeExpr.eval]; ring⟩
  | var name => exact other
  | bin op a b => exact other

/-- Taken apart, factors still have the product of all of them. -/
theorem haveProduct_splitFactors (he : ∀ e ∈ es, e.Exact σ) :
    HaveProduct σ (splitFactors es) (es.map (SizeExpr.eval σ)).prod := by
  have fold : ∀ (es : List SizeExpr) (p : Int × SizeExpr) (w : Int), (∀ e ∈ es, e.Exact σ) →
      HaveProduct σ p w →
        HaveProduct σ (es.foldl takeFactor p) (w * (es.map (SizeExpr.eval σ)).prod) := by
    intro es
    induction es with
    | nil =>
        intro p w _ h
        simpa using h
    | cons e es ih =>
        intro p w he h
        rw [List.foldl_cons, List.map_cons, List.prod_cons, ← mul_assoc]
        exact ih _ _ (fun e' he' => he e' (List.mem_cons_of_mem _ he'))
          (haveProduct_takeFactor h (he e List.mem_cons_self))
  have start : HaveProduct σ (1, .const 1) 1 := ⟨1, Or.inl rfl, SizeExpr.exact_const 1, rfl⟩
  rw [splitFactors_eq_foldl, ← one_mul (es.map (SizeExpr.eval σ)).prod]
  exact fold es _ 1 he start

/-- What is left of some sizes has their product up to the factors that they share with other sizes, of
which the integers are left. -/
theorem cancelFactors_eq_some {sizes : List SizeExpr} {denominator : Int}
    (he : ∀ e ∈ sizes, e.Exact σ) (hk : Dim.AllHold σ known others)
    (exact_known : ∀ d ∈ known, d.Exact σ) (range : ∀ n ∈ others, (n : Int) ≤ Int64.maxValue.toInt)
    (h : cancelFactors sizes known = some (left, denominator)) :
    (∀ e ∈ left, e.Exact σ) ∧ ∃ common : Int,
      (sizes.map (SizeExpr.eval σ)).prod = (left.map (SizeExpr.eval σ)).prod * common ∧
        (elementCount others : Int) = common * denominator := by
  induction known generalizing sizes left denominator others with
  | nil =>
      cases h
      cases others with
      | nil => exact ⟨he, 1, by simp⟩
      | cons => exact hk.elim
  | cons d rest ih =>
      cases others with
      | nil => exact hk.elim
      | cons n others =>
          obtain ⟨first, hrest⟩ := hk
          unfold cancelFactors at h
          obtain ⟨e, hd, h⟩ := Option.bind_eq_some_iff.1 h
          have value : e.eval σ = n := (Dim.eval_of_expr? (exact_known d List.mem_cons_self) first
            (range n List.mem_cons_self) hd).2
          have exact_rest : ∀ d ∈ rest, d.Exact σ := fun d' hd' =>
            exact_known d' (List.mem_cons_of_mem _ hd')
          have range_rest : ∀ m ∈ others, (m : Int) ≤ Int64.maxValue.toInt := fun m hm =>
            range m (List.mem_cons_of_mem _ hm)
          have symbolic : (if sizes.contains e then cancelFactors (sizes.erase e) rest else none) =
                some (left, denominator) →
              (∀ e ∈ left, e.Exact σ) ∧ ∃ common : Int,
                (sizes.map (SizeExpr.eval σ)).prod = (left.map (SizeExpr.eval σ)).prod * common ∧
                  (elementCount (n :: others) : Int) = common * denominator := by
            intro h
            split at h
            · rename_i mem
              have mem : e ∈ sizes := List.contains_iff_mem.1 mem
              obtain ⟨exact_left, common, product, count⟩ :=
                ih (fun e' he' => he e' (List.mem_of_mem_erase he')) hrest exact_rest range_rest h
              refine ⟨exact_left, e.eval σ * common, ?_, ?_⟩
              · rw [((List.perm_cons_erase mem).map _).prod_eq, List.map_cons, List.prod_cons, product]
                ring
              · rw [elementCount_cons, Nat.cast_mul, count, value]
                ring
            · cases h
          cases e with
          | const v =>
              obtain ⟨found, hfound, h⟩ := Option.bind_eq_some_iff.1 h
              cases h
              obtain ⟨exact_left, common, product, count⟩ :=
                ih he hrest exact_rest range_rest hfound
              refine ⟨exact_left, common, product, ?_⟩
              rw [elementCount_cons, Nat.cast_mul, count, ← value, SizeExpr.eval]
              ring
          | var name => exact symbolic h
          | bin op a b => exact symbolic h

/-- A factor that is shared by both sides is cancelled, and an exact quotient is moved to the other side. -/
theorem eq_tdiv_mul_of_cancelled {size common denominator constant v : Int}
    (filled : size * (common * denominator) = constant * v * common) (shared : common ≠ 0)
    (positive : denominator ≠ 0) (divides : constant.tmod denominator = 0) :
    size = constant.tdiv denominator * v := by
  have exactly : constant.tdiv denominator * denominator = constant := by
    exact Int.tdiv_mul_cancel (Int.dvd_of_tmod_eq_zero divides)
  refine mul_right_cancel₀ (mul_ne_zero shared positive) (filled.trans ?_)
  nth_rewrite 1 [← exactly]
  ring

/-- The dimension that is found holds of the size that fills what the others leave. -/
theorem holds_inferReshapeDim {size : Nat} (hd : Dim.AllHold σ dims shape)
    (exact_dims : ∀ d ∈ dims, d.Exact σ) (range : ∀ n ∈ shape, (n : Int) ≤ Int64.maxValue.toInt)
    (hk : Dim.AllHold σ known others) (exact_known : ∀ d ∈ known, d.Exact σ)
    (range' : ∀ n ∈ size :: others, (n : Int) ≤ Int64.maxValue.toInt)
    (count : elementCount (size :: others) = elementCount shape) (nonzero : elementCount others ≠ 0) :
    (inferReshapeDim dims known).Holds σ size := by
  unfold inferReshapeDim
  dsimp only
  cases hsizes : dims.mapM Dim.expr? with
  | none => trivial
  | some sizes =>
      obtain ⟨exact_sizes, values⟩ := Dim.map_eval_of_expr? exact_dims hd range hsizes
      cases hcancel : cancelFactors sizes known with
      | none => simp [hcancel, Dim.Holds]
      | some found =>
          obtain ⟨left, denominator⟩ := found
          obtain ⟨exact_left, common, product, count'⟩ := cancelFactors_eq_some exact_sizes hk
            exact_known (fun n hn => range' n (List.mem_cons_of_mem _ hn)) hcancel
          obtain ⟨v, stands, exact_symbols, split⟩ := haveProduct_splitFactors exact_left
          simp only [hcancel, Option.bind_eq_bind, Option.bind_some]
          split
          · trivial
          · rename_i divides
            obtain ⟨positive, divides⟩ := not_or.1 divides
            have whole : (elementCount shape : Int) = (sizes.map (SizeExpr.eval σ)).prod := by
              rw [values, elementCount_eq_prod, Nat.cast_list_prod]
            have filled : (size : Int) * (common * denominator) =
                (splitFactors left).1 * v * common := by
              rw [← count', split, ← product, ← whole, ← count, elementCount_cons, Nat.cast_mul]
            have shared : common ≠ 0 := by
              rintro rfl
              exact nonzero (by simpa using count')
            have size_eq : (size : Int) = (splitFactors left).1.tdiv denominator * v := by
              exact eq_tdiv_mul_of_cancelled filled shared positive (Decidable.not_not.1 divides)
            have quotient : Saturates (((SizeExpr.const ((splitFactors left).1.tdiv denominator)).times
                (splitFactors left).2).eval σ) size := by
              rw [size_eq]
              exact (SizeExpr.saturates_times (SizeExpr.exact_const _) exact_symbols).trans
                ((Saturates.refl _).mul stands)
            have inside : |(size : Int)| ≤ Int64.maxValue.toInt := by
              rw [Nat.abs_cast]
              exact range' size List.mem_cons_self
            exact Dim.holds_ofExpr (SizeExpr.exact_simplify _) (quotient.eq inside)

/-! ## Entries of a target -/

section

variable {input : Option (List Dim)} {allowZero : Bool} {target : List SizeExpr} {e : SizeExpr}
  {i n : Nat} {v : Int}

/-- An entry that is not to be found copies a dimension of the input or is the size itself. -/
theorem reshapeEntry_eq_some (h : reshapeEntry shape allowZero i v = .ok (some n)) :
    v = 0 ∧ allowZero = false ∧ shape[i]? = some n ∨ (v ≠ 0 ∨ allowZero = true) ∧ v = n := by
  unfold reshapeEntry at h
  split at h
  · cases h
  · split at h
    · rename_i copied
      obtain ⟨m, hm, rfl⟩ : ∃ m, shape[i]? = some m ∧ m = n := by
        obtain ⟨m, hm, heq⟩ := map_eq_ok_iff.1 h
        cases heq
        exact ⟨n, orFault_eq_ok_iff.1 hm, rfl⟩
      exact Or.inl ⟨copied.1, by simpa using copied.2, hm⟩
    · rename_i plain
      split at h
      · cases h
      · cases h
        refine Or.inr ⟨?_, by omega⟩
        by_cases zero : v = 0
        · exact Or.inr (by simpa [zero] using plain)
        · exact Or.inl zero

/-- The dimension for an entry holds of the size that the entry stands for. -/
theorem holds_reshapeDim (hin : ∀ dims, input = some dims → Dim.AllHold σ dims shape)
    (he : e.Exact σ) (positive : e.constant? = none → 0 < e.eval σ)
    (h : e.eval σ ≠ -1 → reshapeEntry shape allowZero i (e.eval σ) = .ok (some n)) :
    (reshapeDim input allowZero i e).Holds σ n := by
  -- An entry that copies nothing is the size.
  have plain : e.eval σ ≠ -1 → (e.eval σ ≠ 0 ∨ allowZero = true) →
      (Dim.ofExpr e).Holds σ n := by
    intro given kept
    refine Dim.holds_ofExpr he ?_
    rcases reshapeEntry_eq_some (h given) with ⟨zero, forbidden, -⟩ | ⟨-, value⟩
    · simp [zero, forbidden] at kept
    · exact value
  unfold reshapeDim
  cases hc : e.constant? with
  | none =>
      have size := positive hc
      exact plain (by omega) (Or.inl (by omega))
  | some v =>
      have value : e.eval σ = v := by
        cases e with
        | const c =>
            cases hc
            rfl
        | var name => cases hc
        | bin op a b => cases hc
      dsimp only
      rw [value] at plain h
      split
      · trivial
      · rename_i given
        split
        · rename_i copied
          have copies := reshapeEntry_eq_some (h given)
          cases input with
          | none => trivial
          | some dims =>
              have size : shape[i]? = some n := by
                rcases copies with ⟨-, -, size⟩ | ⟨kept, -⟩
                · exact size
                · simp [copied.1] at kept
                  simp [kept] at copied
              have dim := Dim.holds_getD (hin dims rfl) i 0
              rw [List.getD_eq_getElem?_getD, List.getD_eq_getElem?_getD, size] at dim
              exact dim
        · rename_i kept
          refine plain given ?_
          by_cases zero : v = 0
          · exact Or.inr (by simpa [zero] using kept)
          · exact Or.inl zero

theorem exact_reshapeDim (hin : ∀ dims, input = some dims → ∀ d ∈ dims, d.Exact σ) :
    (reshapeDim input allowZero i e).Exact σ := by
  unfold reshapeDim
  split
  · split
    · exact Dim.exact_unknown
    · split
      · cases input with
        | none => exact Dim.exact_unknown
        | some dims =>
            rw [Option.bind_some, ← List.getD_eq_getElem?_getD]
            exact Dim.exact_getD (hin dims rfl) i
      · exact Dim.exact_ofExpr _
  · exact Dim.exact_ofExpr _

/-- The dimensions of a target that is known hold of the shape that it stands for. -/
theorem allHold_reshapeDims {out : List Nat} (hin : ∀ dims, input = some dims → Dim.AllHold σ dims shape)
    (exact_in : ∀ dims, input = some dims → ∀ d ∈ dims, d.Exact σ) (he : ∀ e ∈ target, e.Exact σ)
    (positive : ∀ e ∈ target, e.constant? = none → 0 < e.eval σ)
    (range : ∀ n ∈ shape, (n : Int) ≤ Int64.maxValue.toInt)
    (range' : ∀ n ∈ out, (n : Int) ≤ Int64.maxValue.toInt)
    (h : resolveReshape shape (target.map (SizeExpr.eval σ)) allowZero = .ok out)
    (count : elementCount out = elementCount shape) :
    Dim.AllHold σ (reshapeDims input allowZero target) out := by
  obtain ⟨length, given, found⟩ := resolveReshape_eq_ok h
  have dims : Dim.AllHold σ
      (target.zipIdx.map fun p => reshapeDim input allowZero p.2 p.1) out := by
    rw [Dim.allHold_iff_getElem?]
    refine ⟨by simp [length], fun i d n hd hn => ?_⟩
    obtain ⟨p, hp, rfl⟩ := Option.map_eq_some_iff.1 ((List.getElem?_map ..).symm.trans hd)
    obtain ⟨e, htarget, rfl⟩ : ∃ e, target[i]? = some e ∧ (e, i) = p := by
      simpa using hp
    have mem : e ∈ target := List.mem_of_getElem? htarget
    refine holds_reshapeDim hin (he e mem) (positive e mem) fun differs => ?_
    obtain ⟨m, hm, hout⟩ := given i (e.eval σ) (by rw [List.getElem?_map, htarget]; rfl) differs
    rwa [Option.some.inj (hn.symm.trans hout)]
  have exact_dims : ∀ d ∈ target.zipIdx.map fun p => reshapeDim input allowZero p.2 p.1,
      d.Exact σ := by
    intro d hd
    obtain ⟨p, -, rfl⟩ := List.mem_map.1 hd
    exact exact_reshapeDim exact_in
  unfold reshapeDims
  dsimp only
  split
  · rename_i e i input_dims wanted
    -- The dimensions at the other places hold of what they are to fill.
    have place : target[i]? = some (.const (-1)) := by
      obtain ⟨mem, minus_one⟩ := List.mem_filter.1 (List.mem_of_getLast? wanted)
      rw [← of_decide_eq_true minus_one]
      exact List.mk_mem_zipIdx_iff_getElem?.1 mem
    obtain ⟨-, nonzero⟩ := found i (by rw [List.getElem?_map, place]; rfl)
    have bound : i < out.length := by
      rw [length, List.length_map]
      exact (List.getElem?_eq_some_iff.1 place).1
    have itself : out.set i out[i] = out := List.set_getElem_self bound
    rw [← itself]
    refine Dim.allHold_set dims ?_
    refine holds_inferReshapeDim (hin _ rfl) (exact_in _ rfl) range (Dim.allHold_eraseIdx dims i)
      (fun d hd => exact_dims d (List.mem_of_mem_eraseIdx hd)) ?_ ?_ nonzero
    · intro n hn
      rcases List.mem_cons.1 hn with rfl | hn
      · exact range' _ (List.getElem_mem bound)
      · exact range' n (List.mem_of_mem_eraseIdx hn)
    · rw [← count, elementCount_eq_prod, elementCount_eq_prod]
      exact (List.getElem_cons_eraseIdx_perm bound).prod_eq
  · exact dims

end

/-! ## The rule -/

/-- The rule for reshaped tensors gives the type and dimensions that hold of the tensor: each one that is
copied, found or taken from the target is the actual size. -/
theorem inferReshape_sound {allowZero : Bool} {fs : InputFacts} {inputs : Inputs} {out : Tensor}
    (facts : fs.TrueOf σ inputs)
    (positive : ∀ f values, fs.get? 1 = some f → f.values = some values →
      ∀ e ∈ values, e.constant? = none → 0 < e.eval σ)
    (counted : ∀ t, inputs.get? 1 = some t → t.Counted)
    (range : ∀ t, inputs.get? 0 = some t → ∀ n ∈ t.shape, (n : Int) ≤ Int64.maxValue.toInt)
    (range' : ∀ n ∈ out.shape, (n : Int) ≤ Int64.maxValue.toInt)
    (h : runReshape allowZero inputs = .ok out) :
    ∃ g, inferReshape allowZero fs = .ok [g] ∧ g.withoutValues.Holds σ out := by
  rw [runReshape_eq] at h
  obtain ⟨t, ht, h⟩ := bind_eq_ok_iff.1 h
  obtain ⟨vs, hvs, h⟩ := bind_eq_ok_iff.1 h
  obtain ⟨shape, hshape, h⟩ := bind_eq_ok_iff.1 h
  obtain ⟨count, -, rfl⟩ := reshapeTo_eq_ok_iff.1 h
  obtain ⟨u, hu, hints⟩ := Inputs.requireInts_eq_ok_iff.1 hvs
  obtain ⟨input, hinput, holds, simplifies⟩ := facts.require ht
  obtain ⟨target, htarget, holds', simplifies'⟩ := facts.exists_facts hu
  unfold inferReshape
  simp only [hinput, InputFacts.require_of_get? htarget, bind, Except.bind]
  refine ⟨_, rfl, Facts.holds_withoutValues holds.type_eq fun dims hdims => ?_⟩
  dsimp only at hdims
  split at hdims
  · rename_i values hvalues
    cases hdims
    rw [holds'.intList_eq hvalues] at hints
    cases hints
    exact allHold_reshapeDims holds.shape_eq simplifies.shape (simplifies'.values values hvalues)
      (positive target values htarget hvalues) (range t (Inputs.require_eq_ok_iff.1 ht)) range'
      hshape count
  · -- As many sizes as the target has elements are not known.
    rename_i rank _ hrank
    cases hdims
    have target_shape : u.shape = [rank] := Dim.eq_of_sizes? (holds'.shape_eq _ hrank) rfl
    have length : rank = shape.length := by
      rw [(resolveReshape_eq_ok hshape).1, (counted u hu).length_of_intList hints, target_shape,
        elementCount_cons, elementCount_nil, Nat.mul_one]
    rw [length]
    exact Dim.allHold_unknown
  · cases hdims

/-- A matrix with as many rows as the name says, and a target with the rows for its columns. -/
def flippedFacts : InputFacts :=
  [some { type := some .int64, shape := some [.named "rows", .fixed 3] },
    some (.ofValues .int64 [.const (-1), .var "rows"])]

def flippedInputs : Inputs :=
  [some { shape := [2, 3], elements := .int64 #[1, 2, 3, 4, 5, 6] },
    some (.vector (#[-1, 2] : Array Int64))]

/-- The rows are cancelled, so three are found. -/
theorem inferReshape_sound_flipped : ∃ out, runReshape false flippedInputs = .ok out ∧
    out.shape = [3, 2] ∧ ∃ g, inferReshape false flippedFacts = .ok [g] ∧
      g.shape = some [.fixed 3, .named "rows"] ∧ g.withoutValues.Holds (fun _ => 2) out := by
  have ran : runReshape false flippedInputs =
      .ok { shape := [3, 2], elements := .int64 #[1, 2, 3, 4, 5, 6] } := by decide +kernel
  have found : inferReshape false flippedFacts =
      .ok [{ type := some .int64, shape := some [.fixed 3, .named "rows"] }] := by cbv
  have greatest : Int64.maxValue.toInt = 9223372036854775807 := by rfl
  have named : SizeExpr.Exact (fun _ => 2) (.var "rows") := Or.inl (.var "rows")
  have facts : flippedFacts.TrueOf (fun _ => 2) flippedInputs := by
    refine ⟨.cons (.some ?_) (.cons (.some ?_) .nil), ?_⟩
    · exact ⟨fun _ h => by cases h; rfl, fun _ h => by cases h; exact ⟨rfl, rfl, trivial⟩,
        fun _ h => by cases h⟩
    · exact ⟨fun _ h => by cases h; rfl, fun _ h => by cases h; exact ⟨rfl, trivial⟩,
        fun _ h => by cases h; decide⟩
    · simp [flippedFacts, Facts.exact_iff, Facts.ofValues, Dim.named, Dim.exact_symbolic_iff,
        Dim.exact_fixed, SizeExpr.exact_const, named]
  obtain ⟨g, infers, holds⟩ := inferReshape_sound facts (fun _ _ hf hv => by cases hf; cases hv; decide)
    (fun _ ht => by cases ht; exact (Tensor.computed_vector _).storable.counted)
    (fun _ ht => by cases ht; simp [greatest]) (by simp [greatest]) ran
  cases found.symm.trans infers
  exact ⟨_, ran, rfl, _, found, rfl, holds⟩

end TensorGraph
