import TensorGraph.Proofs.Evaluation.Values
import TensorGraph.Proofs.Operator.Neutral
import TensorGraph.Proofs.Operator.Reshape
import TensorGraph.Proofs.Operator.Transpose
import TensorGraph.Proofs.Simplification.Match
import TensorGraph.Simplification.Fusion

/-!
# Nodes with a kernel

Input:

* a node whose operator computes one tensor from its inputs, and the values of a run.

Such a node yields what its kernel makes of the attributes and of the values of the inputs
(`Node.yields_single_iff`), so that what nodes of one operator type yield is said without reading the
operator.

Results:

* one `iff` for each operator type that rules look for;
* what two nodes in a row make of the input of the first one (`Node.Maps.feed`);
* the arguments of a node whose first input was replaced (`Node.arguments_withFirstInput`).
-/

namespace TensorGraph

open AttributeValue View

namespace Node

variable {version : Option Int64} {chance : Generator} {n : Node} {V : Scope Tensor}
  {ts : List Tensor} {args : Inputs}

/-! ## Arguments -/

theorem input?_eq_some_iff {i : Nat} {x : String} :
    n.input? i = some x ↔ n.inputs[i]? = some x ∧ x ≠ "" := by
  unfold input?
  rw [Option.filter_eq_some_iff, decide_eq_true_iff]

theorem mem_presentInputs_of_input? {i : Nat} {x : String} (h : n.input? i = some x) :
    x ∈ n.presentInputs := by
  obtain ⟨hmem, hne⟩ := input?_eq_some_iff.1 h
  exact mem_presentInputs.2 ⟨List.mem_of_getElem? hmem, hne⟩

/-- The operands that a pattern matches are the first inputs. -/
theorem input?_of_operands {a b : String} (h : Pattern.operands n = [a, b]) :
    (a ≠ "" → n.input? 0 = some a) ∧ n.input? 1 = some b := by
  obtain ⟨rest, hrest⟩ := Pattern.operands_prefix n
  rw [h] at hrest
  simp only [input?_eq_some_iff, ← hrest]
  exact ⟨fun ha => ⟨rfl, ha⟩, rfl, Pattern.getLast_operands_ne h⟩

theorem eq_of_operands {a b x : String} (h : Pattern.operands n = [a, b])
    (hx : n.input? 0 = some x) : x = a := by
  obtain ⟨rest, hrest⟩ := Pattern.operands_prefix n
  rw [h] at hrest
  rw [input?_eq_some_iff, ← hrest] at hx
  exact (Option.some.inj hx.1).symm

/-- An input that was there can be replaced. -/
theorem input?_set_zero {m : Node} {x y : String} (inputs : m.inputs = n.inputs.set 0 x)
    (hy : n.input? 0 = some y) (hx : x ≠ "") : m.input? 0 = some x := by
  obtain ⟨first, -⟩ := List.getElem?_eq_some_iff.1 (input?_eq_some_iff.1 hy).1
  rw [input?_eq_some_iff, inputs, List.getElem?_set_self first]
  exact ⟨rfl, hx⟩

/-- The argument at a position is the value of the input there. -/
theorem get?_arguments (h : n.arguments V = .ok args) (i : Nat) :
    args.get? i = (n.input? i).bind V.get? := by
  obtain ⟨-, rfl⟩ := arguments_eq_ok_iff.1 h
  unfold Inputs.get? input?
  rw [List.getElem?_map]
  cases n.inputs[i]? with
  | none => rfl
  | some x =>
      by_cases hx : x = "" <;> simp [hx, Option.filter]

/-- A computation on an argument that is required is one on the value of an input. -/
theorem require_bind_eq_ok_iff {β : Type} (h : n.arguments V = .ok args) {i : Nat}
    {f : Tensor → OpResult β} {u : β} :
    (args.require i >>= f) = .ok u ↔
      ∃ x t, n.input? i = some x ∧ V.get? x = some t ∧ f t = .ok u := by
  rw [Inputs.require, bind_eq_ok_iff, get?_arguments h]
  simp only [orFault_eq_ok_iff, Option.bind_eq_some_iff]
  constructor
  · rintro ⟨t, ⟨x, hx, ht⟩, hu⟩
    exact ⟨x, t, hx, ht, hu⟩
  · rintro ⟨x, t, hx, ht, hu⟩
    exact ⟨t, ⟨x, hx, ht⟩, hu⟩

/-- All inputs but the first stay when it is replaced. -/
theorem arguments_withFirstInput {m : Node} {x y : String} {t : Tensor}
    (inputs : m.inputs = n.inputs.set 0 x) (h : n.arguments V = .ok args)
    (hy : n.input? 0 = some y) (hx : x ≠ "") (ht : V.get? x = some t) :
    m.arguments V = .ok (args.set 0 (some t)) := by
  obtain ⟨found, rfl⟩ := arguments_eq_ok_iff.1 h
  obtain ⟨first, -⟩ := input?_eq_some_iff.1 hy
  rw [arguments_eq_ok_iff, inputs]
  cases hin : n.inputs with
  | nil =>
      rw [hin] at first
      cases first
  | cons z rest =>
      refine ⟨fun u hu => ?_, ?_⟩
      · obtain ⟨hmem, hne⟩ := mem_presentInputs.1 hu
        rw [inputs, hin, List.set_cons_zero, List.mem_cons] at hmem
        rcases hmem with rfl | hmem
        · exact ⟨t, ht⟩
        · exact found u (mem_presentInputs.2 ⟨hin ▸ List.mem_cons_of_mem _ hmem, hne⟩)
      · simp [hx, ht]

/-- The arguments of a node with three inputs that have values. -/
theorem arguments_triple {x y z : String} {a b c : Tensor}
    (inputs : n.inputs = [x, y, z]) (hx : x ≠ "") (hy : y ≠ "") (hz : z ≠ "")
    (ha : V.get? x = some a) (hb : V.get? y = some b) (hc : V.get? z = some c) :
    n.arguments V = .ok [some a, some b, some c] := by
  refine arguments_eq_ok_iff.2 ⟨fun u hu => ?_, ?_⟩
  · have mem := (mem_presentInputs.1 hu).1
    rw [inputs] at mem
    simp only [List.mem_cons, List.not_mem_nil, or_false] at mem
    rcases mem with rfl | rfl | rfl
    · exact ⟨a, ha⟩
    · exact ⟨b, hb⟩
    · exact ⟨c, hc⟩
  · simp [inputs, hx, hy, hz, ha, hb, hc]

/-- Later arguments stay. -/
theorem get?_set_zero (args : Inputs) (a : Option Tensor) (i : Nat) :
    Inputs.get? (args.set 0 a) (i + 1) = args.get? (i + 1) := by
  unfold Inputs.get?
  rw [List.getElem?_set_ne (by omega)]

/-! ## Kernels with one output -/

/-- What a node yields whose kernel computes one tensor. -/
theorem yields_single_iff {α : Type} {opType : String} {k : α → Kernel} {r : ReadResult α}
    {f : α → Inputs → OpResult Tensor} (hop : n.isOperator opType = true)
    (plain : opType ≠ "If" ∧ opType ≠ "Loop")
    (hread : Operator.readKernel? version n = some (k <$> r))
    (hrun : ∀ a chance args, (k a).run chance args (some n.outputs.length) =
      f a args >>= fun u => .ok [u]) :
    n.Yields version chance V ts ↔ ∃ a args u, r = .ok a ∧ n.arguments V = .ok args ∧
      f a args = .ok u ∧ ts = [u] := by
  obtain ⟨rfl, hdomain⟩ := isOperator_iff.1 hop
  have operator : Operator.ofNode version n = Operator.kernel <$> k <$> r := by
    unfold Operator.ofNode
    rw [if_pos hdomain, if_neg plain.1, if_neg plain.2, hread]
  have output : ∀ a args, Operator.runNode version chance n V args (.kernel (k a)) = .ok ts ↔
      ∃ u, f a args = .ok u ∧ ts = [u] := by
    intro a args
    unfold Operator.runNode
    dsimp only
    rw [hrun]
    cases f a args with
    | error e => simp [bind, Except.bind, Except.mapError]
    | ok u => simp [bind, Except.bind, Except.mapError, eq_comm]
  unfold Yields
  rw [operator]
  cases r with
  | error e => simp [Functor.map, Except.map]
  | ok a => simp [Functor.map, Except.map, output]

theorem yields_transpose_iff (h : n.isOperator "Transpose" = true) :
    n.Yields version chance V ts ↔ ∃ perm args x t order u, n.read? "perm" asInts = .ok perm ∧
      n.arguments V = .ok args ∧ n.input? 0 = some x ∧ V.get? x = some t ∧
      resolvePerm perm t.rank = .ok order ∧ transposeBy order t = .ok u ∧ ts = [u] := by
  refine (yields_single_iff h (by decide) (k := .transpose) (f := runTranspose)
    (by unfold Operator.readKernel?; rw [(isOperator_iff.1 h).1]; rfl) fun _ _ _ => rfl).trans ?_
  refine exists_congr fun perm => exists_congr fun args => ?_
  constructor
  · rintro ⟨u, hread, hargs, hrun, rfl⟩
    rw [runTranspose_eq] at hrun
    obtain ⟨x, t, hx, ht, hrun⟩ := (require_bind_eq_ok_iff hargs).1 hrun
    obtain ⟨order, horder, hrun⟩ := bind_eq_ok_iff.1 hrun
    exact ⟨x, t, order, u, hread, hargs, hx, ht, horder, hrun, rfl⟩
  · rintro ⟨x, t, order, u, hread, hargs, hx, ht, horder, hrun, rfl⟩
    refine ⟨u, hread, hargs, ?_, rfl⟩
    rw [runTranspose_eq]
    exact (require_bind_eq_ok_iff hargs).2 ⟨x, t, hx, ht, bind_eq_ok_iff.2 ⟨order, horder, hrun⟩⟩

theorem yields_reshape_iff (h : n.isOperator "Reshape" = true) :
    n.Yields version chance V ts ↔ ∃ allowZero args x t target u,
      n.readOr "allowzero" false asBool = .ok allowZero ∧ n.arguments V = .ok args ∧
      n.input? 0 = some x ∧ V.get? x = some t ∧ args.requireInts 1 = .ok target ∧
      reshapeBy allowZero target t = .ok u ∧ ts = [u] := by
  refine (yields_single_iff h (by decide) (k := .reshape) (f := runReshape)
    (by unfold Operator.readKernel?; rw [(isOperator_iff.1 h).1]; rfl) fun _ _ _ => rfl).trans ?_
  refine exists_congr fun allowZero => exists_congr fun args => ?_
  constructor
  · rintro ⟨u, hread, hargs, hrun, rfl⟩
    rw [runReshape_eq] at hrun
    obtain ⟨x, t, hx, ht, hrun⟩ := (require_bind_eq_ok_iff hargs).1 hrun
    obtain ⟨target, htarget, hrun⟩ := bind_eq_ok_iff.1 hrun
    exact ⟨x, t, target, u, hread, hargs, hx, ht, htarget, hrun, rfl⟩
  · rintro ⟨x, t, target, u, hread, hargs, hx, ht, htarget, hrun, rfl⟩
    refine ⟨u, hread, hargs, ?_, rfl⟩
    rw [runReshape_eq]
    exact (require_bind_eq_ok_iff hargs).2 ⟨x, t, hx, ht, bind_eq_ok_iff.2 ⟨target, htarget, hrun⟩⟩

theorem yields_squeeze_iff (h : n.isOperator "Squeeze" = true) :
    n.Yields version chance V ts ↔ ∃ axes args u, n.read? "axes" asInts = .ok axes ∧
      n.arguments V = .ok args ∧ runSqueeze axes args = .ok u ∧ ts = [u] :=
  yields_single_iff h (by decide)
    (by unfold Operator.readKernel?; rw [(isOperator_iff.1 h).1]; rfl) fun _ _ _ => rfl

theorem yields_unsqueeze_iff (h : n.isOperator "Unsqueeze" = true) :
    n.Yields version chance V ts ↔ ∃ axes args u, n.read? "axes" asInts = .ok axes ∧
      n.arguments V = .ok args ∧ runUnsqueeze axes args = .ok u ∧ ts = [u] :=
  yields_single_iff h (by decide)
    (by unfold Operator.readKernel?; rw [(isOperator_iff.1 h).1]; rfl) fun _ _ _ => rfl

theorem yields_cast_iff (h : n.isOperator "Cast" = true) :
    n.Yields version chance V ts ↔ ∃ type args x t u, n.readRequired "to" asType = .ok type ∧
      n.arguments V = .ok args ∧ n.input? 0 = some x ∧ V.get? x = some t ∧
      castTensor t type = .ok u ∧ ts = [u] := by
  refine (yields_single_iff h (by decide) (k := .cast) (f := runCast)
    (by unfold Operator.readKernel?; rw [(isOperator_iff.1 h).1]; rfl) fun _ _ _ => rfl).trans ?_
  refine exists_congr fun type => exists_congr fun args => ?_
  constructor
  · rintro ⟨u, hread, hargs, hrun, rfl⟩
    obtain ⟨x, t, hx, ht, hrun⟩ := (require_bind_eq_ok_iff hargs).1 hrun
    exact ⟨x, t, u, hread, hargs, hx, ht, hrun, rfl⟩
  · rintro ⟨x, t, u, hread, hargs, hx, ht, hrun, rfl⟩
    exact ⟨u, hread, hargs, (require_bind_eq_ok_iff hargs).2 ⟨x, t, hx, ht, hrun⟩, rfl⟩

/-- What a node yields whose kernel computes a tensor from its first two inputs. -/
theorem yields_pair_iff {opType : String} {kernel : Kernel} {f : Tensor → Tensor → OpResult Tensor}
    (hop : n.isOperator opType = true) (plain : opType ≠ "If" ∧ opType ≠ "Loop")
    (hread : Operator.readKernel? version n = some (.ok kernel))
    (hrun : ∀ chance args outputs, kernel.run chance args outputs =
      (args.require 0 >>= fun a => args.require 1 >>= fun b => f a b) >>= fun u => .ok [u]) :
    n.Yields version chance V ts ↔ ∃ args x t y s u, n.arguments V = .ok args ∧
      n.input? 0 = some x ∧ V.get? x = some t ∧ n.input? 1 = some y ∧ V.get? y = some s ∧
      f t s = .ok u ∧ ts = [u] := by
  refine (yields_single_iff hop plain (k := fun _ : Unit => kernel) (r := .ok ())
    (f := fun _ args => args.require 0 >>= fun a => args.require 1 >>= fun b => f a b) hread
    fun _ chance args => hrun chance args _).trans ?_
  constructor
  · rintro ⟨-, args, u, -, hargs, hu, rfl⟩
    obtain ⟨x, t, hx, ht, hu⟩ := (require_bind_eq_ok_iff hargs).1 hu
    obtain ⟨y, s, hy, hs, hu⟩ := (require_bind_eq_ok_iff hargs).1 hu
    exact ⟨args, x, t, y, s, u, hargs, hx, ht, hy, hs, hu, rfl⟩
  · rintro ⟨args, x, t, y, s, u, hargs, hx, ht, hy, hs, hu, rfl⟩
    refine ⟨(), args, u, rfl, hargs, ?_, rfl⟩
    exact (require_bind_eq_ok_iff hargs).2
      ⟨x, t, hx, ht, (require_bind_eq_ok_iff hargs).2 ⟨y, s, hy, hs, hu⟩⟩

theorem yields_castLike_iff (h : n.isOperator "CastLike" = true) :
    n.Yields version chance V ts ↔ ∃ args x t y s u, n.arguments V = .ok args ∧
      n.input? 0 = some x ∧ V.get? x = some t ∧ n.input? 1 = some y ∧ V.get? y = some s ∧
      castTensor t s.elementType = .ok u ∧ ts = [u] := by
  have read : Operator.readKernel? version n = some (.ok .castLike) := by
    unfold Operator.readKernel?
    rw [(isOperator_iff.1 h).1]
    rfl
  exact yields_pair_iff h (by decide) read fun _ _ _ => rfl

/-- The operators with the names of functions that have a neutral number apply these functions. -/
theorem yields_binary_iff {f : BinaryFunction} {number : Binary64} (h : n.isOperator f.name = true)
    (neutral : f.neutral? = some number) :
    n.Yields version chance V ts ↔ ∃ args x t y s u, n.arguments V = .ok args ∧
      n.input? 0 = some x ∧ V.get? x = some t ∧ n.input? 1 = some y ∧ V.get? y = some s ∧
      f.run t s = .ok u ∧ ts = [u] := by
  have name := (isOperator_iff.1 h).1
  have read : Operator.readKernel? version n = some (.ok (.binary f)) := by
    unfold Operator.readKernel?
    rw [name]
    cases f <;> first | rfl | cases neutral
  have plain : f.name ≠ "If" ∧ f.name ≠ "Loop" := by cases f <;> first | decide | cases neutral
  refine yields_pair_iff h plain read fun chance args outputs => ?_
  rw [bind_assoc]
  exact bind_congr fun a => (bind_assoc _ _ _).symm

theorem yields_expand_iff (h : n.isOperator "Expand" = true) :
    n.Yields version chance V ts ↔ ∃ args x t ints target shape u, n.arguments V = .ok args ∧
      n.input? 0 = some x ∧ V.get? x = some t ∧ args.requireInts 1 = .ok ints ∧
      toSizes ints = .ok target ∧ broadcastShapes t.shape target = some shape ∧
      takeTensor t shape (broadcastOffsets t.shape shape) = .ok u ∧ ts = [u] := by
  refine (yields_single_iff h (by decide) (k := fun _ : Unit => .expand) (r := .ok ())
    (f := fun _ => runExpand)
    (by unfold Operator.readKernel?; rw [(isOperator_iff.1 h).1]; rfl) fun _ _ _ => rfl).trans ?_
  constructor
  · rintro ⟨-, args, u, -, hargs, hu, rfl⟩
    obtain ⟨x, t, hx, ht, hu⟩ := (require_bind_eq_ok_iff hargs).1 hu
    obtain ⟨ints, hints, hu⟩ := bind_eq_ok_iff.1 hu
    obtain ⟨target, htarget, hu⟩ := bind_eq_ok_iff.1 hu
    obtain ⟨shape, hshape, hu⟩ := bind_eq_ok_iff.1 hu
    exact ⟨args, x, t, ints, target, shape, u, hargs, hx, ht, hints, htarget,
      orFault_eq_ok_iff.1 hshape, hu, rfl⟩
  · rintro ⟨args, x, t, ints, target, shape, u, hargs, hx, ht, hints, htarget, hshape, hu, rfl⟩
    refine ⟨(), args, u, rfl, hargs, ?_, rfl⟩
    refine (require_bind_eq_ok_iff hargs).2 ⟨x, t, hx, ht, bind_eq_ok_iff.2 ⟨ints, hints, ?_⟩⟩
    exact bind_eq_ok_iff.2 ⟨target, htarget,
      bind_eq_ok_iff.2 ⟨shape, orFault_eq_ok_iff.2 hshape, hu⟩⟩

theorem yields_matMul_iff (h : n.isOperator "MatMul" = true) :
    n.Yields version chance V ts ↔ ∃ args x t y s u, n.arguments V = .ok args ∧
      n.input? 0 = some x ∧ V.get? x = some t ∧ n.input? 1 = some y ∧ V.get? y = some s ∧
      runMatMul [some t, some s] = .ok u ∧ ts = [u] := by
  have read : Operator.readKernel? version n = some (.ok .matMul) := by
    unfold Operator.readKernel?
    rw [(isOperator_iff.1 h).1]
    rfl
  have factors : ∀ args, runMatMul args =
      args.require 0 >>= fun a => args.require 1 >>= fun b => runMatMul [some a, some b] :=
    fun _ => rfl
  refine yields_pair_iff h (by decide) read fun chance args outputs => ?_
  rw [← factors]
  rfl

theorem readOr_of_none {α : Type} {name : String} {default : α}
    {f : AttributeValue → Except AttributeProblem α} (h : n.attribute? name = none) :
    n.readOr name default f = .ok default := by
  unfold readOr read?
  rw [h]
  rfl

/-- A scaled product without attributes has factors of one. -/
theorem yields_gemm_iff (h : n.isOperator "Gemm" = true) (plain : n.attributes = []) :
    n.Yields version chance V ts ↔ ∃ args u, n.arguments V = .ok args ∧
      Gemm.run {} args = .ok u ∧ ts = [u] := by
  have missing : ∀ name, n.attribute? name = none := by
    intro name
    unfold attribute?
    rw [plain]
    rfl
  have read : Operator.readKernel? version n = some (.ok (.gemm {})) := by
    unfold Operator.readKernel?
    rw [(isOperator_iff.1 h).1]
    show some (Operator.readGemm n) = _
    unfold Operator.readGemm
    simp only [readOr_of_none (missing _)]
    rfl
  refine (yields_single_iff h (by decide) (k := fun _ : Unit => .gemm {}) (r := .ok ())
    (f := fun _ => Gemm.run {}) read fun _ _ _ => rfl).trans ?_
  constructor
  · rintro ⟨-, args, u, -, hargs, hu, rfl⟩
    exact ⟨args, u, hargs, hu, rfl⟩
  · rintro ⟨args, u, hargs, hu, rfl⟩
    exact ⟨(), args, u, rfl, hargs, hu, rfl⟩

/-- What is read from a convolution. -/
theorem exists_readConv (n : Node) :
    ∃ r : ReadResult Conv, Operator.readConv n = Kernel.conv <$> r := by
  have kernel : ∀ k, Operator.readConv n = .ok k → ∃ c, k = .conv c := by
    intro k h
    obtain ⟨groups, -, h⟩ := bind_eq_ok_iff.1 h
    obtain ⟨kernelShape, -, h⟩ := bind_eq_ok_iff.1 h
    obtain ⟨padding, -, h⟩ := bind_eq_ok_iff.1 h
    obtain ⟨strides, -, h⟩ := bind_eq_ok_iff.1 h
    obtain ⟨dilations, -, h⟩ := bind_eq_ok_iff.1 h
    cases h
    exact ⟨_, rfl⟩
  cases h : Operator.readConv n with
  | error e => exact ⟨.error e, rfl⟩
  | ok k =>
      obtain ⟨c, rfl⟩ := kernel k h
      exact ⟨.ok c, rfl⟩

theorem yields_conv_iff (h : n.isOperator "Conv" = true) :
    n.Yields version chance V ts ↔ ∃ c args u, Operator.readConv n = .ok (.conv c) ∧
      n.arguments V = .ok args ∧ c.run args = .ok u ∧ ts = [u] := by
  obtain ⟨r, hr⟩ := exists_readConv n
  have read : Operator.readKernel? version n = some (Kernel.conv <$> r) := by
    rw [← hr]
    unfold Operator.readKernel?
    rw [(isOperator_iff.1 h).1]
    rfl
  refine (yields_single_iff h (by decide) (f := Conv.run) read fun _ _ _ => rfl).trans ?_
  rw [hr]
  cases r with
  | error e => simp [Functor.map, Except.map]
  | ok c => simp [Functor.map, Except.map]

theorem yields_batchNormalization_iff (h : n.isOperator "BatchNormalization" = true) :
    n.Yields version chance V ts ↔ ∃ epsilon args u,
      n.readOr "epsilon" ⟨0x3727c5ac⟩ asFloat = .ok epsilon ∧ n.arguments V = .ok args ∧
      BatchNormalization.run ⟨epsilon⟩ args (some n.outputs.length) = .ok u ∧ ts = [u] :=
  yields_single_iff h (by decide) (k := fun epsilon => .batchNormalization ⟨epsilon⟩)
    (f := fun epsilon args => BatchNormalization.run ⟨epsilon⟩ args (some n.outputs.length))
    (by unfold Operator.readKernel?; rw [(isOperator_iff.1 h).1]; rfl) fun _ _ _ => rfl

/-! ## Values of single outputs -/

/-- The output of a node that yields one tensor has it as its value. -/
theorem Holds.exists_output (h : n.Holds version chance V) {x : String}
    (hx : x ∈ n.presentOutputs)
    (single : ∀ ts, n.Yields version chance V ts → ∃ u, ts = [u]) :
    ∃ u s, n.Yields version chance V [u] ∧ V.get? x = some s ∧ u.Alike s := by
  obtain ⟨ts, yields, bound⟩ := h
  obtain ⟨u, rfl⟩ := single ts yields
  obtain ⟨t, ht⟩ := bound.exists_value hx
  have first : t = u := List.mem_singleton.1 (List.of_mem_zip ht).2
  have value := bound.values _ ht (mem_presentOutputs.1 hx).2
  dsimp only at value
  generalize V.get? x = o at value
  cases value with
  | some alike => exact ⟨u, _, yields, rfl, first ▸ alike⟩

/-- Whether a node yields one tensor, which is related to the value of its first input. -/
def Maps (n : Node) (version : Option Int64) (chance : Generator) (V : Scope Tensor)
    (R : Tensor → Tensor → Prop) : Prop :=
  ∀ ts, n.Yields version chance V ts →
    ∃ x t u, n.input? 0 = some x ∧ V.get? x = some t ∧ R t u ∧ ts = [u]

theorem maps_reshape (h : n.isOperator "Reshape" = true) :
    n.Maps version chance V fun t u => ∃ allowZero target, reshapeBy allowZero target t = .ok u := by
  intro ts yields
  obtain ⟨allowZero, _, x, t, target, u, -, -, hx, ht, -, hu, rfl⟩ := (yields_reshape_iff h).1 yields
  exact ⟨x, t, u, hx, ht, ⟨allowZero, target, hu⟩, rfl⟩

/-- A node that reads what another one has yielded gets a tensor that is alike. -/
theorem Maps.feed {inner : Node} {R S : Tensor → Tensor → Prop} {x y : String}
    (first : inner.Maps version chance V R) (second : n.Maps version chance V S)
    (respects : ∀ u s w, u.Alike s → S s w → S u w) (hx : inner.input? 0 = some x)
    (hy : n.input? 0 = some y) (feeds : y ∈ inner.presentOutputs)
    (holds : inner.Holds version chance V) (yields : n.Yields version chance V ts) :
    ∃ t u w, V.get? x = some t ∧ R t u ∧ S u w ∧ ts = [w] := by
  obtain ⟨u, s, inside, hs, alike⟩ := holds.exists_output feeds fun us hus => by
    obtain ⟨_, _, u, -, -, -, rfl⟩ := first us hus
    exact ⟨u, rfl⟩
  obtain ⟨x', t, u', hx', ht, hu, heq⟩ := first [u] inside
  cases heq
  cases hx.symm.trans hx'
  obtain ⟨y', s', w, hy', hs', hw, rfl⟩ := second ts yields
  cases hy.symm.trans hy'
  cases hs.symm.trans hs'
  exact ⟨t, u, w, ht, hu, respects u s w alike hw, rfl⟩

/-- A node holds when its only output has the tensor that it yields. -/
theorem holds_single {y : String} {u : Tensor} (outputs : n.outputs = [y])
    (yields : n.Yields version chance V [u]) (hu : V.get? y = some u) :
    n.Holds version chance V := by
  refine ⟨[u], yields, by simp [outputs], ?_⟩
  simp only [outputs, List.zip_cons_cons, List.zip_nil_right, List.forall_mem_singleton, hu]
  exact fun _ => .some (.refl u)

end Node
end TensorGraph
