import Mathlib.Data.List.Flatten
import TensorGraph.Proofs.Operator.Kernel
import TensorGraph.Proofs.Simplification.Regular
import TensorGraph.Simplification.Prune

/-!
# Removing what is not used

Input:

* a sound graph in topological order.

Algorithm:

* `liveNodes` goes through the nodes from the last one to the first, and collects the names that are
  live;
* `Node.dropDeadOutputs` leaves out optional outputs that are not live;
* `removeUnusedInitializers` keeps what is read.

The nodes are in order, so whatever produces a live name is kept (`mem_produced_liveNodes`).

Main results:

* `Graph.eliminateDeadCode_simplifies` and `Graph.removeUnusedInitializers_simplifies`.
-/

namespace TensorGraph

/-! ## Left out outputs -/

theorem trimOmitted_append (required : Nat) (outputs : List String) :
    ∃ omitted, trimOmitted required outputs ++ omitted = outputs ∧ ∀ x ∈ omitted, x = "" := by
  refine ⟨((outputs.drop required).reverse.takeWhile (· = "")).reverse, ?_, ?_⟩
  · unfold trimOmitted
    rw [List.append_assoc, ← List.reverse_append, List.takeWhile_append_dropWhile,
      List.reverse_reverse, List.take_append_drop]
  · intro x hx
    have := List.all_takeWhile (p := fun x : String => decide (x = ""))
      (l := (outputs.drop required).reverse)
    exact of_decide_eq_true (List.all_eq_true.1 this x (List.mem_reverse.1 hx))

/-- Names that are omitted unless they are live. -/
theorem filter_map_live_sublist (live names : List String) :
    ((names.map fun o => if live.contains o then o else "").filter (· ≠ "")).Sublist
      (names.filter (· ≠ "")) := by
  induction names with
  | nil => exact List.Sublist.refl _
  | cons x rest ih =>
      rw [List.map_cons, List.filter_cons, List.filter_cons]
      by_cases hx : x = ""
      · have : (if live.contains x then x else "") = "" := by
          rw [hx]
          exact ite_self _
        rw [this]
        simpa [hx] using ih
      · by_cases hl : x ∈ live
        · simpa [hl, hx] using ih
        · simpa [hl, hx] using ih.cons x

namespace Node

/-- Whether a node was changed only by leaving out outputs that are not live. -/
structure Trims (live : List String) (n m : Node) : Prop where
  frame : ∃ outputs, m = { n with outputs := outputs }
  sublist : m.presentOutputs.Sublist n.presentOutputs
  length : m.outputs.length ≤ n.outputs.length
  keeps : ∀ x ∈ n.presentOutputs, x ∈ live → x ∈ m.presentOutputs
  control : n.checkControlFlow = .ok () → m.checkControlFlow = .ok ()

variable {live : List String} {n m : Node}

theorem Trims.refl (live : List String) (n : Node) : Trims live n n :=
  ⟨⟨n.outputs, by cases n; rfl⟩, List.Sublist.refl _, Nat.le_refl _, fun _ h _ => h, fun h => h⟩

theorem Trims.reads (h : Trims live n m) : m.reads = n.reads := by
  obtain ⟨outputs, rfl⟩ := h.frame
  rw [Node.reads, Node.reads]
  rfl

theorem Trims.innerNames (h : Trims live n m) : m.innerNames = n.innerNames := by
  obtain ⟨outputs, rfl⟩ := h.frame
  rfl

theorem Trims.deepRegular (h : Trims live n m) (regular : n.DeepRegular) : m.DeepRegular := by
  have control := h.control regular.regular.control
  have length := h.length
  obtain ⟨outputs, rfl⟩ := h.frame
  refine ⟨⟨control, fun hd ho => ?_, regular.regular.operand, regular.regular.flat, ?_⟩,
    regular.inside⟩
  · exact Nat.le_trans length (regular.regular.fits hd ho)
  · exact ⟨regular.regular.storable.opType, regular.regular.storable.unknown,
      regular.regular.storable.attributes⟩

/-- Only kernels have optional outputs. -/
theorem checkControlFlow_of_requiredOutputs? {version : Option Int64} {required : Nat}
    (h : (Operator.ofNode version n).toOption.bind Operator.requiredOutputs? = some required)
    (outputs : List String) :
    ({ n with outputs := outputs } : Node).checkControlFlow = .ok () := by
  obtain ⟨operator, hop, hrequired⟩ := Option.bind_eq_some_iff.1 h
  cases operator with
  | kernel k =>
      cases hread : Operator.ofNode version n with
      | error e =>
          rw [hread] at hop
          cases hop
      | ok operator =>
          rw [hread] at hop
          cases hop
          obtain ⟨hif, hloop, -⟩ := Operator.ofNode_kernel hread
          exact checkControlFlow_of_ne hif hloop
  | branch onTrue onFalse => cases hrequired
  | loop body => cases hrequired

theorem trims_dropDeadOutputs (version : Option Int64) (live : List String) (n : Node) :
    Trims live n (n.dropDeadOutputs version live) := by
  unfold dropDeadOutputs
  split
  · exact Trims.refl live n
  · rename_i required hrequired
    obtain ⟨omitted, heq, hempty⟩ := trimOmitted_append required
      (n.outputs.take required ++
        (n.outputs.drop required).map fun o => if live.contains o then o else "")
    have hfilter : ∀ {l : List String}, (∀ x ∈ l, x = "") → l.filter (· ≠ "") = [] := by
      intro l hl
      rw [List.filter_eq_nil_iff]
      intro x hx
      simp [hl x hx]
    have hpresent : (trimOmitted required (n.outputs.take required ++
        (n.outputs.drop required).map fun o => if live.contains o then o else "")).filter (· ≠ "") =
        (n.outputs.take required).filter (· ≠ "") ++
          ((n.outputs.drop required).map fun o => if live.contains o then o else "").filter
            (· ≠ "") := by
      rw [← List.filter_append, ← heq, List.filter_append, hfilter hempty, List.append_nil, heq]
    have hsplit : n.presentOutputs = (n.outputs.take required).filter (· ≠ "") ++
        (n.outputs.drop required).filter (· ≠ "") := by
      unfold presentOutputs
      rw [← List.filter_append, List.take_append_drop]
    refine ⟨⟨_, rfl⟩, ?_, ?_, ?_, fun _ => checkControlFlow_of_requiredOutputs? hrequired _⟩
    · rw [hsplit]
      unfold presentOutputs
      rw [hpresent]
      exact (List.Sublist.refl _).append (filter_map_live_sublist live _)
    · have := congrArg List.length heq
      simp only [List.length_append, List.length_map, List.length_take, List.length_drop] at this ⊢
      omega
    · intro x hx hlive
      rw [hsplit] at hx
      unfold presentOutputs
      rw [hpresent]
      rcases List.mem_append.1 hx with hx | hx
      · exact List.mem_append_left _ hx
      · rw [List.mem_filter] at hx
        refine List.mem_append_right _ (List.mem_filter.2 ⟨List.mem_map.2 ⟨x, hx.1, ?_⟩, hx.2⟩)
        rw [List.contains_eq_mem, decide_eq_true hlive, if_pos rfl]

end Node

/-! ## Live nodes -/

theorem Node.produces_iff {n : Node} {names : List String} :
    n.produces names = true ↔ ∃ x ∈ n.presentOutputs, x ∈ names := by
  unfold produces
  simp only [List.any_eq_true, List.contains_eq_mem, decide_eq_true_eq]

namespace Graph

theorem liveNodes_sublist (names : List String) (ns : List Node) :
    (liveNodes names ns).1.Sublist ns := by
  induction ns with
  | nil => exact List.Sublist.refl _
  | cons n rest ih =>
      unfold liveNodes
      dsimp only
      split
      · exact ih.cons_cons n
      · exact ih.cons n

/-- The live names are the given ones and those that live nodes read. -/
theorem mem_liveNodes {names : List String} {ns : List Node} {x : String} :
    x ∈ (liveNodes names ns).2 ↔ x ∈ names ∨ ∃ n ∈ (liveNodes names ns).1, x ∈ n.reads := by
  induction ns with
  | nil => simp [liveNodes]
  | cons n rest ih =>
      unfold liveNodes
      dsimp only
      split
      · simp only [List.mem_append, List.mem_cons, exists_eq_or_imp, ih]
        exact or_left_comm
      · exact ih

/-- What produces a live name is live. -/
theorem mem_produced_liveNodes {names : List String} {ns : List Node} (sorted : Node.Sorted ns)
    {x : String} (hx : x ∈ (liveNodes names ns).2) {n : Node} (hn : n ∈ ns)
    (hout : x ∈ n.presentOutputs) : n ∈ (liveNodes names ns).1 := by
  induction ns with
  | nil => cases hn
  | cons m rest ih =>
      have unread : x ∉ m.reads := fun hr => sorted.1 x hr n hn hout
      unfold liveNodes at hx ⊢
      dsimp only at hx ⊢
      split at hx
      · rename_i hproduces
        rw [if_pos hproduces]
        rcases List.mem_cons.1 hn with rfl | hn
        · exact List.mem_cons_self
        · exact List.mem_cons_of_mem _
            (ih sorted.of_cons ((List.mem_append.1 hx).resolve_left unread) hn)
      · rename_i hproduces
        rw [if_neg hproduces]
        rcases List.mem_cons.1 hn with rfl | hn
        · refine absurd ?_ hproduces
          exact List.any_eq_true.2 ⟨x, hout, by simpa using hx⟩
        · exact ih sorted.of_cons hx hn

/-- The live ones among sorted nodes are those that produce a live name. -/
theorem liveNodes_eq_filter (names : List String) {ns : List Node} (sorted : Node.Sorted ns) :
    (liveNodes names ns).1 = ns.filter (·.produces (liveNodes names ns).2) := by
  induction ns with
  | nil => rfl
  | cons n rest ih =>
      unfold liveNodes
      dsimp only
      split
      · rename_i hproduces
        obtain ⟨x, hout, hx⟩ := Node.produces_iff.1 hproduces
        have here : n.produces (n.reads ++ (liveNodes names rest).2) = true :=
          Node.produces_iff.2 ⟨x, hout, List.mem_append_right _ hx⟩
        rw [List.filter_cons, if_pos here, ih sorted.of_cons]
        refine congrArg (n :: ·) ?_
        -- what the first node reads is produced by none of the others
        refine List.filter_congr fun m hm => ?_
        rw [Bool.eq_iff_iff, Node.produces_iff, Node.produces_iff]
        refine exists_congr fun y => and_congr_right fun hy => ?_
        rw [List.mem_append]
        exact (or_iff_right fun hr => sorted.1 y hr m (List.mem_cons_of_mem _ hm) hy).symm
      · rename_i hproduces
        rw [List.filter_cons, if_neg hproduces]
        exact ih sorted.of_cons

end Graph

/-! ## Graphs without what is not used -/

theorem Node.Sorted.sublist {ns ms : List Node} (h : Node.Sorted ns) (sub : ms.Sublist ns) :
    Node.Sorted ms := by
  induction sub with
  | slnil => trivial
  | cons n _ ih => exact ih h.2
  | cons_cons n hsub ih =>
      refine ⟨fun x hx m hm => h.1 x hx m ?_, ih h.2⟩
      rcases List.mem_cons.1 hm with rfl | hm
      · exact List.mem_cons_self
      · exact List.mem_cons_of_mem _ (hsub.subset hm)

theorem Node.Sorted.map {ns : List Node} (h : Node.Sorted ns) {f : Node → Node}
    (hreads : ∀ n ∈ ns, (f n).reads = n.reads)
    (houts : ∀ n ∈ ns, ∀ x ∈ (f n).presentOutputs, x ∈ n.presentOutputs) :
    Node.Sorted (ns.map f) := by
  induction ns with
  | nil => trivial
  | cons n rest ih =>
      refine ⟨fun x hx m hm => ?_, ih h.2 (fun m hm => hreads m (List.mem_cons_of_mem _ hm))
        fun m hm => houts m (List.mem_cons_of_mem _ hm)⟩
      rw [hreads n List.mem_cons_self] at hx
      obtain ⟨k, hk, rfl⟩ := List.mem_map.1 (show m ∈ (n :: rest).map f from hm)
      exact fun hmem => h.1 x hx k hk (houts k hk x hmem)

namespace Graph

variable {g : Graph}

/-- The nodes that are left are still sorted. -/
theorem sorted_eliminateDeadCode (sorted : Node.Sorted g.nodes) (version : Option Int64) :
    Node.Sorted (g.eliminateDeadCode version).nodes :=
  (sorted.sublist (liveNodes_sublist g.outputNames g.nodes)).map
    (fun n _ => (Node.trims_dropDeadOutputs version _ n).reads)
    fun n _ _ hx => (Node.trims_dropDeadOutputs version _ n).sublist.subset hx

theorem eliminateDeadCode_simplifies (sound : g.Sound) (sorted : Node.Sorted g.nodes)
    (version : Option Int64) : g.Simplifies (g.eliminateDeadCode version) := by
  have hsub := liveNodes_sublist g.outputNames g.nodes
  have hmem := @mem_liveNodes g.outputNames g.nodes
  have hlive := @mem_produced_liveNodes g.outputNames g.nodes sorted
  have sorted' := sorted_eliminateDeadCode sorted version
  have heq : g.eliminateDeadCode version =
      { g with
        nodes := (liveNodes g.outputNames g.nodes).1.map
          (Node.dropDeadOutputs version (liveNodes g.outputNames g.nodes).2) } := rfl
  rw [heq] at sorted' ⊢
  generalize liveNodes g.outputNames g.nodes = r at hsub hmem hlive sorted'
  obtain ⟨kept, live⟩ := r
  dsimp only at hsub hmem hlive sorted' ⊢
  have trims : ∀ n, Node.Trims live n (n.dropDeadOutputs version live) :=
    Node.trims_dropDeadOutputs version live
  have hproduced :
      ((kept.map (Node.dropDeadOutputs version live)).flatMap Node.presentOutputs).Sublist
        g.produced := by
    rw [List.flatMap_map]
    exact (List.Sublist.flatMap_right kept fun n _ => (trims n).sublist).trans (hsub.flatMap _)
  have hinner : ((kept.map (Node.dropDeadOutputs version live)).flatMap Node.innerNames).Sublist
      g.innerNames := by
    rw [List.flatMap_map]
    refine (List.Sublist.flatMap_right kept fun n _ => ?_).trans (hsub.flatMap _)
    rw [(trims n).innerNames]
  have reduces : g.Reduces { g with nodes := kept.map (Node.dropDeadOutputs version live) } := by
    refine ⟨rfl, rfl, fun x => ?_, fun _ _ => Iff.rfl, fun x hx => ?_⟩
    · rw [count_made, count_made]
      exact Nat.add_le_add (Nat.add_le_add (Nat.le_refl _) (hproduced.count_le x))
        (hinner.count_le x)
    · obtain ⟨hread, hundef⟩ := mem_captures.1 hx
      have hlive' : x ∈ live := by
        rw [hmem]
        rcases hread with ⟨m, hm, hr⟩ | ho
        · obtain ⟨n, hn, rfl⟩ := List.mem_map.1 hm
          rw [(trims n).reads] at hr
          exact Or.inr ⟨n, hn, hr⟩
        · exact Or.inl ho
      refine mem_captures.2 ⟨?_, fun hdef => hundef ?_⟩
      · rcases hmem.1 hlive' with ho | ⟨n, hn, hr⟩
        · exact Or.inr ho
        · exact Or.inl ⟨n, hsub.subset hn, hr⟩
      · rcases mem_definedNames.1 hdef with h | h | h
        · exact mem_definedNames.2 (Or.inl h)
        · exact mem_definedNames.2 (Or.inr (Or.inl h))
        · -- a live name keeps its producer
          obtain ⟨n, hn, hout⟩ := mem_produced.1 h
          refine mem_definedNames.2 (Or.inr (Or.inr (mem_produced.2
            ⟨_, List.mem_map.2 ⟨n, hlive hlive' hn hout, rfl⟩, ?_⟩)))
          exact (trims n).keeps x hout hlive'
  refine ⟨sound_iff.2 ⟨sound.separate.reduce reduces, ?_, ?_, ?_⟩, reduces, sorted'⟩
  · intro m hm
    obtain ⟨n, hn, rfl⟩ := List.mem_map.1 hm
    exact (trims n).deepRegular (sound.deepRegular (hsub.subset hn))
  · exact sorted'.acyclic (sound.separate.distinct.sublist hproduced)
  · exact ⟨sound.storable.unknown, sound.storable.initializers, sound.storable.inputs,
      sound.storable.outputs, sound.storable.valueInfo⟩

/-- Initializers that nothing reads, and that are no inputs, can be left out. -/
theorem filter_initializers_simplifies (sound : g.Sound) (sorted : Node.Sorted g.nodes)
    {keep : Initializer → Bool}
    (hkeep : ∀ i ∈ g.initializers, i.name ∈ g.uses ∨ i.name ∈ g.inputNames → keep i) :
    g.Simplifies { g with initializers := g.initializers.filter keep } := by
  have hsub : ((g.initializers.filter keep).map Initializer.name).Sublist g.initializerNames :=
    List.filter_sublist.map _
  have hmem : ∀ x, x ∈ g.uses ∨ x ∈ g.inputNames → x ∈ g.initializerNames →
      x ∈ (g.initializers.filter keep).map Initializer.name := by
    intro x hx hdef
    obtain ⟨i, hi, rfl⟩ := List.mem_map.1 hdef
    exact List.mem_map.2 ⟨i, List.mem_filter.2 ⟨hi, hkeep i hi hx⟩, rfl⟩
  have reduces : g.Reduces { g with initializers := g.initializers.filter keep } := by
    refine ⟨rfl, rfl, fun x => ?_, fun x hx => ⟨fun h => hsub.subset h, fun h => ?_⟩,
      fun x hx => ?_⟩
    · rw [count_made, count_made]
      exact Nat.add_le_add (Nat.add_le_add (hsub.count_le x) (Nat.le_refl _)) (Nat.le_refl _)
    · exact hmem x (Or.inr hx) h
    · obtain ⟨hread, hundef⟩ := mem_captures.1 hx
      refine mem_captures.2 ⟨hread, fun hdef => hundef ?_⟩
      rcases mem_definedNames.1 hdef with h | h | h
      · exact mem_definedNames.2 (Or.inl h)
      · exact mem_definedNames.2 (Or.inr (Or.inl (hmem x (Or.inl (mem_uses.2 hread)) h)))
      · exact mem_definedNames.2 (Or.inr (Or.inr h))
  refine ⟨sound_iff.2 ⟨sound.separate.reduce reduces, ?_, sound.acyclic, ?_⟩, reduces, sorted⟩
  · exact fun n hn => sound.deepRegular hn
  · exact ⟨sound.storable.unknown,
      fun i hi => sound.storable.initializers i (List.mem_filter.1 hi).1,
      sound.storable.inputs, sound.storable.outputs, sound.storable.valueInfo⟩

theorem removeUnusedInitializers_simplifies (sound : g.Sound) (sorted : Node.Sorted g.nodes) :
    g.Simplifies g.removeUnusedInitializers := by
  refine filter_initializers_simplifies sound sorted fun i _ hused => ?_
  rcases hused with hx | hx
  · simp [hx]
  · simp [isInput_iff.2 hx]

end Graph
end TensorGraph
