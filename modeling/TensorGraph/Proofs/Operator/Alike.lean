import TensorGraph.Operator.Kernel
import TensorGraph.Proofs.Tensor.Alike

/-!
# Kernels on inputs that differ in their messages

Input:

* a kernel, and two lists of inputs, related by a likeness of tensors.

No kernel looks at the messages that tensors keep.  Most of them compute new tensors from shapes and
elements; some pass an input on.

Main results:

* `Kernel.run_alike`: on related inputs a kernel gives related outputs;
* `Kernel.run_eq_of_not_drawsByChance`: a kernel that draws no random numbers does not depend on chance.
-/

namespace TensorGraph

open Tensor (Likeness)

variable {R : Tensor → Tensor → Prop} {xs ys : Inputs}

/-- Kernels with one output. -/
theorem matches_single {r r' : OpResult Tensor} (h : Matches R r r') :
    Matches (List.Forall₂ R) (do return [← r]) (do return [← r']) :=
  h.bind fun _ _ hab => .pure (.cons hab .nil)

variable [Likeness R]

/-! ## Elementwise operators -/

theorem UnaryFunction.run_alike (f : UnaryFunction) {a b : Tensor} (h : R a b) :
    Matches R (f.run a) (f.run b) :=
  Likeness.matches_of_blind h f.run Likeness.refl fun _ _ => by cases f <;> rfl

theorem clipBound_alike (h : xs.Related R ys) (α : Type) [Element α] (i : Nat)
    (default : Option Binary32) : clipBound α xs i default = clipBound α ys i default := by
  have rel := h.get? i
  unfold clipBound
  generalize xs.get? i = x at rel ⊢
  generalize ys.get? i = y at rel ⊢
  cases rel with
  | none => rfl
  | some hab => simp only [Likeness.item? hab α]

theorem runClip_alike (low high : Option Binary32) (h : xs.Related R ys) :
    Matches R (runClip low high xs) (runClip low high ys) := by
  refine (h.require 0).bind fun a b hab => ?_
  refine .dispatchNumeric (Likeness.elementType hab) fun α _ _ => ?_
  rw [clipBound_alike h, clipBound_alike h]
  exact Likeness.matches_of_blind hab (fun t => do
    let low ← clipBound α ys 1 low
    let high ← clipBound α ys 2 high
    mapTensor t (clipElement low high)) Likeness.refl fun _ _ => rfl

theorem cast?_alike {a b : Tensor} (h : R a b) (type : ElementType) :
    Option.Rel R (a.cast? type) (b.cast? type) := by
  unfold Tensor.cast?
  rw [← Likeness.elementType h, ← Likeness.shape h, ← Likeness.elements h]
  by_cases same : a.elementType = type
  · rw [if_pos same, if_pos same]
    exact .some h
  · rw [if_neg same, if_neg same]
    generalize (if a.elementType.isFloat = true then _ else _ : Option Tensor) = o
    cases o with
    | none => exact .none
    | some t => exact .some (Likeness.refl t)

theorem castTensor_alike {a b : Tensor} (h : R a b) (type : ElementType) :
    Matches R (castTensor a type) (castTensor b type) :=
  .orFault (cast?_alike h type)

theorem BinaryFunction.run_alike (f : BinaryFunction) {a a' b b' : Tensor} (ha : R a a')
    (hb : R b b') : Matches R (f.run a b) (f.run a' b') := by
  cases f with
  | pow =>
      unfold BinaryFunction.run
      dsimp only
      rw [← Likeness.elementType ha]
      refine (Matches.orFault (cast?_alike hb a.elementType)).bind fun c c' hc => ?_
      exact Likeness.matches_of_blind₂ ha hc (fun t u => numeric t u _) Likeness.refl
        fun _ _ _ _ => rfl
  | add | sub | mul | div | mod truncated | equal | less | lessOrEqual | greater | greaterOrEqual
  | and | or | xor =>
      exact Likeness.matches_of_blind₂ ha hb (BinaryFunction.run _) Likeness.refl fun _ _ _ _ => rfl

theorem VariadicFunction.step_alike (f : VariadicFunction) {a a' b b' : Tensor} (ha : R a a')
    (hb : R b b') : Matches R (f.step a b) (f.step a' b') :=
  Likeness.matches_of_blind₂ ha hb f.step Likeness.refl fun _ _ _ _ => by cases f <;> rfl

theorem VariadicFunction.run_alike (f : VariadicFunction) (h : xs.Related R ys) :
    Matches R (f.run xs) (f.run ys) := by
  have present := h.present
  unfold VariadicFunction.run
  generalize xs.present = ts at present ⊢
  generalize ys.present = us at present ⊢
  cases present with
  | nil => exact .error
  | @cons _ _ _ us first rest =>
      refine (Matches.foldlM rest (fun _ _ _ _ hab hxy => f.step_alike hxy hab) first).bind
        fun total total' htotal => ?_
      cases f with
      | mean =>
          dsimp only
          rw [rest.length_eq]
          exact Likeness.matches_of_blind htotal (fun total => do
            let count ← orFault .unsupportedType
              ((Tensor.scalar (Binary64.ofInt64 (.ofNat (us.length + 1)))).cast? total.elementType)
            total.elementType.dispatchReal fun α _ _ =>
              binaryMap (fun (x y : α) => some (RealOps.div x y)) total count) Likeness.refl
            fun _ _ => rfl
      | sum | max | min => exact .pure htotal

theorem runWhere_alike (h : xs.Related R ys) : Matches R (runWhere xs) (runWhere ys) := by
  refine (h.require 0).bind fun c c' hc => (h.require 1).bind fun x x' hx =>
    (h.require 2).bind fun y y' hy => .of_eq ?_ Likeness.refl
  obtain ⟨_, rfl⟩ := Likeness.exists_source hc
  obtain ⟨_, rfl⟩ := Likeness.exists_source hx
  obtain ⟨_, rfl⟩ := Likeness.exists_source hy
  rfl

/-! ## Reductions -/

/-- A reduction, once its axes are known. -/
theorem Reduction.reduce_alike (r : Reduction) (axes : Option (List Int)) {t t' : Tensor}
    (h : R t t') :
    Matches R
      (do
        match ← reduceAxes t.rank axes r.noopWithEmptyAxes with
        | none => return t
        | some axes =>
          let out ← t.elementType.dispatchNumeric fun α _ _ => reduceTensor α t axes r.kind
          if r.keepDims then return out else reshapeOrFault out (droppedShape t.shape axes))
      (do
        match ← reduceAxes t'.rank axes r.noopWithEmptyAxes with
        | none => return t'
        | some axes =>
          let out ← t'.elementType.dispatchNumeric fun α _ _ => reduceTensor α t' axes r.kind
          if r.keepDims then return out else reshapeOrFault out (droppedShape t'.shape axes)) := by
  rw [Likeness.rank h]
  refine .bind_same fun reduced => ?_
  cases reduced with
  | none => exact .pure h
  | some axes =>
      exact Likeness.matches_of_blind h (fun t => do
        let out ← t.elementType.dispatchNumeric fun α _ _ => reduceTensor α t axes r.kind
        if r.keepDims then return out else reshapeOrFault out (droppedShape t.shape axes))
        Likeness.refl fun _ _ => rfl

theorem Reduction.run_alike (r : Reduction) (h : xs.Related R ys) :
    Matches R (r.run xs) (r.run ys) := by
  refine (h.require 0).bind fun t t' ht => ?_
  rw [h.ints? 1]
  dsimp only
  cases r.axes with
  | some axes => exact r.reduce_alike (some axes) ht
  | none => exact .bind_same fun axes => r.reduce_alike axes ht

theorem ArgSelect.run_alike (a : ArgSelect) (h : xs.Related R ys) :
    Matches R (a.run xs) (a.run ys) :=
  h.require_bind 0 _ Likeness.refl fun _ _ => rfl

theorem Softmax.run_alike (s : Softmax) (h : xs.Related R ys) :
    Matches R (s.run xs) (s.run ys) :=
  h.require_bind 0 _ Likeness.refl fun _ _ => rfl

/-! ## Shapes and places -/

theorem runShape_alike (start stop : Option Int) (h : xs.Related R ys) :
    Matches R (runShape start stop xs) (runShape start stop ys) :=
  h.require_bind 0 _ Likeness.refl fun _ _ => rfl

theorem runSize_alike (h : xs.Related R ys) : Matches R (runSize xs) (runSize ys) :=
  h.require_bind 0 _ Likeness.refl fun _ _ => rfl

theorem runReshape_alike (allowZero : Bool) (h : xs.Related R ys) :
    Matches R (runReshape allowZero xs) (runReshape allowZero ys) := by
  unfold runReshape
  rw [h.requireInts 1]
  exact h.require_bind 0 _ Likeness.refl fun _ _ => rfl

theorem runFlatten_alike (axis : Int) (h : xs.Related R ys) :
    Matches R (runFlatten axis xs) (runFlatten axis ys) :=
  h.require_bind 0 _ Likeness.refl fun _ _ => rfl

theorem axesInput_alike (axes : Option (List Int)) (h : xs.Related R ys) :
    axesInput axes xs = axesInput axes ys := by
  unfold axesInput
  rw [h.ints? 1]

theorem runSqueeze_alike (axes : Option (List Int)) (h : xs.Related R ys) :
    Matches R (runSqueeze axes xs) (runSqueeze axes ys) := by
  unfold runSqueeze
  rw [axesInput_alike axes h]
  exact h.require_bind 0 _ Likeness.refl fun _ _ => rfl

theorem runUnsqueeze_alike (axes : Option (List Int)) (h : xs.Related R ys) :
    Matches R (runUnsqueeze axes xs) (runUnsqueeze axes ys) := by
  unfold runUnsqueeze
  rw [axesInput_alike axes h]
  exact h.require_bind 0 _ Likeness.refl fun _ _ => rfl

theorem runTranspose_alike (perm : Option (List Int)) (h : xs.Related R ys) :
    Matches R (runTranspose perm xs) (runTranspose perm ys) :=
  h.require_bind 0 _ Likeness.refl fun _ _ => rfl

theorem runExpand_alike (h : xs.Related R ys) : Matches R (runExpand xs) (runExpand ys) := by
  unfold runExpand
  rw [h.requireInts 1]
  exact h.require_bind 0 _ Likeness.refl fun _ _ => rfl

theorem runNonZero_alike (h : xs.Related R ys) :
    Matches R (runNonZero xs) (runNonZero ys) :=
  h.require_bind 0 _ Likeness.refl fun _ _ => rfl

theorem runTile_alike (h : xs.Related R ys) : Matches R (runTile xs) (runTile ys) := by
  unfold runTile
  rw [h.requireInts 1]
  exact h.require_bind 0 _ Likeness.refl fun _ _ => rfl

/-! ## Joined and selected parts -/

/-- Joining does not look at messages. -/
theorem concatAt_blind (α : Type) [Element α] (axis : Nat) (ts : List Tensor) :
    concatAt α axis (ts.map fun t => { t with source := default }) = concatAt α axis ts := by
  cases ts with
  | nil => rfl
  | cons first rest =>
      simp only [concatAt, List.map_cons, List.all_cons, List.all_map, List.foldl_cons,
        List.foldl_map, List.mapM_cons, List.mapM_map]
      rfl

theorem concatAt_alike (α : Type) [Element α] (axis : Nat) {ts us : List Tensor}
    (h : List.Forall₂ R ts us) : Matches R (concatAt α axis ts) (concatAt α axis us) := by
  have same : ts.map (fun t => { t with source := default }) =
      us.map fun t => { t with source := default } := by
    induction h with
    | nil => rfl
    | cons first _ ih =>
        obtain ⟨_, rfl⟩ := Likeness.exists_source first
        rw [List.map_cons, List.map_cons, ih]
  rw [← concatAt_blind, same, concatAt_blind]
  exact .of_eq rfl Likeness.refl

theorem any_elementType_ne {ts us : List Tensor} (h : List.Forall₂ R ts us) (type : ElementType) :
    (ts.any fun t => t.elementType ≠ type) = us.any fun t => t.elementType ≠ type := by
  induction h with
  | nil => rfl
  | cons first _ ih => rw [List.any_cons, List.any_cons, ih, Likeness.elementType first]

theorem runConcat_alike (axis : Int) (h : xs.Related R ys) :
    Matches R (runConcat axis xs) (runConcat axis ys) := by
  have present := h.present
  unfold runConcat
  generalize xs.present = ts at present ⊢
  generalize ys.present = us at present ⊢
  cases present with
  | nil => exact .error
  | cons first rest =>
      dsimp only
      rw [← Likeness.elementType first, ← Likeness.rank first, any_elementType_ne rest]
      exact .ite (fun _ => .error) fun _ => .bind_same fun axis =>
        .dispatch rfl fun α _ => concatAt_alike α axis (.cons first rest)

theorem runGather_alike (axis : Int) (h : xs.Related R ys) :
    Matches R (runGather axis xs) (runGather axis ys) := by
  unfold runGather
  rw [h.requireInts 1]
  exact h.require_bind₂ 0 1 _ Likeness.refl fun _ _ _ _ => rfl

theorem Slice.bounds_alike (s : Slice) (h : xs.Related R ys) : s.bounds xs = s.bounds ys := by
  unfold Slice.bounds
  rw [h.requireInts 1, h.requireInts 2, h.ints? 3, h.ints? 4]

theorem Slice.run_alike (s : Slice) (h : xs.Related R ys) :
    Matches R (s.run xs) (s.run ys) := by
  unfold Slice.run
  rw [s.bounds_alike h]
  exact h.require_bind 0 _ Likeness.refl fun _ _ => rfl

theorem Split.partSizes_alike (s : Split) (size : Nat) (outputs : Option Nat)
    (h : xs.Related R ys) :
    s.partSizes size xs outputs = s.partSizes size ys outputs := by
  unfold Split.partSizes
  rw [h.ints? 1]

theorem Split.run_alike (s : Split) (outputs : Option Nat) (h : xs.Related R ys) :
    Matches (List.Forall₂ R) (s.run xs outputs) (s.run ys outputs) := by
  unfold Split.run
  simp only [fun size => s.partSizes_alike size outputs h]
  exact h.require_bind 0 _ Likeness.forall₂_refl fun _ _ => rfl

/-! ## Products, windows and generated tensors -/

theorem runMatMul_alike (h : xs.Related R ys) : Matches R (runMatMul xs) (runMatMul ys) :=
  h.require_bind₂ 0 1 _ Likeness.refl fun _ _ _ _ => rfl

theorem Gemm.run_alike (g : Gemm) (h : xs.Related R ys) :
    Matches R (g.run xs) (g.run ys) := by
  refine (h.require 0).bind fun a a' ha => (h.require 1).bind fun b b' hb => .of_eq ?_ Likeness.refl
  obtain ⟨_, rfl⟩ := Likeness.exists_source ha
  obtain ⟨_, rfl⟩ := Likeness.exists_source hb
  refine h.map_get? 2 (fun c => a.elementType.dispatchNumeric fun α _ _ => g.runAt α a b c)
    fun c c' hc => ?_
  obtain ⟨_, rfl⟩ := Likeness.exists_source hc
  rfl

theorem Conv.run_alike (c : Conv) (h : xs.Related R ys) :
    Matches R (c.run xs) (c.run ys) := by
  refine (h.require 0).bind fun x x' hx => (h.require 1).bind fun w w' hw => .of_eq ?_ Likeness.refl
  obtain ⟨_, rfl⟩ := Likeness.exists_source hx
  obtain ⟨_, rfl⟩ := Likeness.exists_source hw
  refine h.map_get? 2 (fun bias => x.elementType.dispatchReal fun α _ _ => c.runAt α x w bias)
    fun b b' hb => ?_
  obtain ⟨_, rfl⟩ := Likeness.exists_source hb
  rfl

theorem BatchNormalization.run_alike (b : BatchNormalization) (outputs : Option Nat)
    (h : xs.Related R ys) : Matches R (b.run xs outputs) (b.run ys outputs) := by
  refine (h.require 0).bind fun x x' hx => (h.require 1).bind fun scale scale' hscale =>
    (h.require 2).bind fun bias bias' hbias => (h.require 3).bind fun mean mean' hmean =>
      (h.require 4).bind fun variance variance' hvariance => .of_eq ?_ Likeness.refl
  obtain ⟨_, rfl⟩ := Likeness.exists_source hx
  obtain ⟨_, rfl⟩ := Likeness.exists_source hscale
  obtain ⟨_, rfl⟩ := Likeness.exists_source hbias
  obtain ⟨_, rfl⟩ := Likeness.exists_source hmean
  obtain ⟨_, rfl⟩ := Likeness.exists_source hvariance
  rfl

theorem MaxPool.run_alike (p : MaxPool) (outputs : Option Nat) (h : xs.Related R ys) :
    Matches (List.Forall₂ R) (p.run xs outputs) (p.run ys outputs) :=
  h.require_bind 0 _ Likeness.forall₂_refl fun _ _ => rfl

theorem AveragePool.run_alike (p : AveragePool) (h : xs.Related R ys) :
    Matches R (p.run xs) (p.run ys) :=
  h.require_bind 0 _ Likeness.refl fun _ _ => rfl

theorem runGlobalAveragePool_alike (h : xs.Related R ys) :
    Matches R (runGlobalAveragePool xs) (runGlobalAveragePool ys) :=
  h.require_bind 0 _ Likeness.refl fun _ _ => rfl

theorem runConstantOfShape_alike (value : Tensor) (h : xs.Related R ys) :
    Matches R (runConstantOfShape value xs) (runConstantOfShape value ys) := by
  unfold runConstantOfShape
  rw [h.requireInts 0]
  exact .of_eq rfl Likeness.refl

theorem runRange_alike (h : xs.Related R ys) : Matches R (runRange xs) (runRange ys) := by
  refine (h.require 0).bind fun a a' ha => ?_
  refine .dispatchNumeric (Likeness.elementType ha) fun α _ _ => ?_
  have scalar : ∀ i, Matches Eq
      (xs.require i >>= fun t =>
        orFault (.invalidValue "range inputs must be scalars of the same type") (t.item? α))
      (ys.require i >>= fun t =>
        orFault (.invalidValue "range inputs must be scalars of the same type") (t.item? α)) :=
    fun i => h.require_bind i _ (fun _ => rfl) fun _ _ => rfl
  refine (scalar 0).bind fun start _ hstart => (scalar 1).bind fun limit _ hlimit =>
    (scalar 2).bind fun delta _ hdelta => ?_
  subst hstart hlimit hdelta
  exact .of_eq rfl Likeness.refl

theorem runDropout_alike (training : Bool) (outputs : Option Nat) (h : xs.Related R ys) :
    Matches (List.Forall₂ R) (runDropout training xs outputs) (runDropout training ys outputs) := by
  refine (h.require 0).bind fun t t' ht => ?_
  have last : ∀ training : Bool, Matches (List.Forall₂ R)
      (if training then .error (.unsupportedValue "training mode is not supported")
        else if 1 < outputs.getD 1 then
          .ok [t, .ofArray t.shape (Array.replicate t.size true)] else .ok [t] :
        OpResult (List Tensor))
      (if training then .error (.unsupportedValue "training mode is not supported")
        else if 1 < outputs.getD 1 then
          .ok [t', .ofArray t'.shape (Array.replicate t'.size true)] else .ok [t'] :
        OpResult (List Tensor)) := by
    intro training
    refine .ite (fun _ => .error) fun _ => .ite (fun _ => ?_) fun _ => .ok (.cons ht .nil)
    rw [Likeness.shape ht, Likeness.size ht]
    exact .ok (.cons ht (Likeness.forall₂_refl _))
  have mode := h.get? 2
  generalize xs.get? 2 = x at mode ⊢
  generalize ys.get? 2 = y at mode ⊢
  cases mode with
  | none => exact last training
  | some hmode =>
      dsimp only
      rw [Likeness.item? hmode Bool]
      exact .bind_same last

theorem runCastLike_alike (h : xs.Related R ys) :
    Matches R (runCastLike xs) (runCastLike ys) := by
  refine (h.require 0).bind fun t t' ht => (h.require 1).bind fun u u' hu => ?_
  rw [Likeness.elementType hu]
  exact castTensor_alike ht u'.elementType

/-! ## Random tensors -/

theorem RandomLike.run_alike (r : RandomLike) (chance : Generator) (h : xs.Related R ys) :
    Matches R (r.run chance xs) (r.run chance ys) :=
  h.require_bind 0 _ Likeness.refl fun _ _ => rfl

theorem Bernoulli.run_alike (b : Bernoulli) (chance : Generator) (h : xs.Related R ys) :
    Matches R (b.run chance xs) (b.run chance ys) :=
  h.require_bind 0 _ Likeness.refl fun _ _ => rfl

theorem Multinomial.run_alike (m : Multinomial) (chance : Generator) (h : xs.Related R ys) :
    Matches R (m.run chance xs) (m.run chance ys) :=
  h.require_bind 0 _ Likeness.refl fun _ _ => rfl

/-! ## All kernels -/

namespace Kernel

/-- On related inputs a kernel gives related outputs. -/
theorem run_alike (k : Kernel) (chance : Generator) (outputs : Option Nat) (h : xs.Related R ys) :
    Matches (List.Forall₂ R) (k.run chance xs outputs) (k.run chance ys outputs) := by
  cases k with
  | unary f => exact (h.require 0).bind fun _ _ ht => matches_single (f.run_alike ht)
  | clip low high => exact matches_single (runClip_alike low high h)
  | binary f =>
      exact (h.require 0).bind fun _ _ ha => (h.require 1).bind fun _ _ hb =>
        matches_single (f.run_alike ha hb)
  | variadic f => exact matches_single (f.run_alike h)
  | select => exact matches_single (runWhere_alike h)
  | reduce r => exact matches_single (r.run_alike h)
  | argSelect a => exact matches_single (a.run_alike h)
  | softmax s => exact matches_single (s.run_alike h)
  | shape start stop => exact matches_single (runShape_alike start stop h)
  | size => exact matches_single (runSize_alike h)
  | reshape allowZero => exact matches_single (runReshape_alike allowZero h)
  | flatten axis => exact matches_single (runFlatten_alike axis h)
  | squeeze axes => exact matches_single (runSqueeze_alike axes h)
  | unsqueeze axes => exact matches_single (runUnsqueeze_alike axes h)
  | transpose perm => exact matches_single (runTranspose_alike perm h)
  | expand => exact matches_single (runExpand_alike h)
  | nonZero => exact matches_single (runNonZero_alike h)
  | concat axis => exact matches_single (runConcat_alike axis h)
  | tile => exact matches_single (runTile_alike h)
  | constant value => exact .ok (Likeness.forall₂_refl _)
  | constantOfShape value => exact matches_single (runConstantOfShape_alike value h)
  | range => exact matches_single (runRange_alike h)
  | identity => exact matches_single (h.require 0)
  | dropout training => exact runDropout_alike training outputs h
  | cast type => exact matches_single ((h.require 0).bind fun _ _ ht => castTensor_alike ht type)
  | castLike => exact matches_single (runCastLike_alike h)
  | gather axis => exact matches_single (runGather_alike axis h)
  | slice s => exact matches_single (s.run_alike h)
  | split s => exact s.run_alike outputs h
  | matMul => exact matches_single (runMatMul_alike h)
  | gemm g => exact matches_single (g.run_alike h)
  | conv c => exact matches_single (c.run_alike h)
  | batchNormalization b => exact matches_single (b.run_alike outputs h)
  | maxPool p => exact p.run_alike outputs h
  | averagePool p => exact matches_single (p.run_alike h)
  | globalAveragePool => exact matches_single (runGlobalAveragePool_alike h)
  | random r => exact matches_single (.of_eq rfl Likeness.refl)
  | randomLike r => exact matches_single (r.run_alike chance h)
  | bernoulli b => exact matches_single (b.run_alike chance h)
  | multinomial m => exact matches_single (m.run_alike chance h)

/-- Whether a kernel draws random numbers from a generator that is left to chance. -/
def drawsByChance : Kernel → Bool
  | random r => r.seed.isNone
  | randomLike r => r.seed.isNone
  | bernoulli b => b.seed.isNone
  | multinomial m => m.seed.isNone
  | _ => false

theorem drawsByChance_of_isDeterministic {k : Kernel} (h : k.isDeterministic = true) :
    k.drawsByChance = false := by
  cases k <;> first | rfl | cases h

/-- A kernel that draws no random numbers by chance does not depend on chance. -/
theorem run_eq_of_not_drawsByChance {k : Kernel} (h : k.drawsByChance = false)
    (chance chance' : Generator) (inputs : Inputs) (outputs : Option Nat) :
    k.run chance inputs outputs = k.run chance' inputs outputs := by
  have seeded : ∀ seed : Option Binary32, seed.isNone = false →
      Generator.ofSeed chance seed = .ofSeed chance' seed := by
    rintro (_ | seed) hseed
    · cases hseed
    · rfl
  cases k with
  | random r => simp only [run, RandomTensor.run, seeded _ h]
  | randomLike r => simp only [run, RandomLike.run, RandomTensor.run, seeded _ h]
  | bernoulli b => simp only [run, Bernoulli.run, seeded _ h]
  | multinomial m => simp only [run, Multinomial.run, seeded _ h]
  | _ => rfl

end Kernel
end TensorGraph
