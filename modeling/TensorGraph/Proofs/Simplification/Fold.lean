import TensorGraph.Proofs.Evaluation.Storable
import TensorGraph.Proofs.Simplification.Inline

/-!
# Folded constants

Input:

* a sound graph, and the facts and constants that are known of it and of the graphs around it.

Algorithm:

* `Graph.lowerConstants` makes initializers of the nodes that stand for constants;
* `FoldContext.fold` finds what a node is replaced by;
* `Graph.applyFoldings` replaces one node after the other, and then the nodes are sorted.

Main results:

* `Graph.lowerConstants_sound`: the graph stays sound and is reduced;
* `FoldContext.fold_expands`: whatever a node is folded to can take its place;
* `Graph.foldConstants_simplifies`: folding succeeds, with a sound graph in order.
-/

namespace TensorGraph

/-! ## Constants that are written as nodes -/

namespace Node

variable {version : Option Int64} {n : Node} {i : Initializer}

/-- A node stands for the constant of its operator. -/
theorem constant?_eq_some (h : n.constant? version = some i) :
    n.opType = "Constant" ∧ n.isDefaultDomain ∧ n.outputs.head? = some i.name ∧ i.name ≠ "" ∧
      Operator.ofNode version n = .ok (.kernel (.constant i.value)) := by
  unfold constant? at h
  split at h
  · rename_i hop
    split at h
    · rename_i output value hout hread
      cases h
      obtain ⟨hhead, hne⟩ := Option.filter_eq_some_iff.1 hout
      exact ⟨hop.1, hop.2, hhead, of_decide_eq_true hne, hread⟩
    · cases h
  · cases h

/-- A node that stands for a constant has one output. -/
theorem presentOutputs_of_constant? (fits : n.Fits) (h : n.constant? version = some i) :
    n.presentOutputs = [i.name] := by
  obtain ⟨hop, hd, hhead, hne, -⟩ := constant?_eq_some h
  have hlen := fits hd (by rw [hop]; decide)
  unfold presentOutputs
  cases houts : n.outputs with
  | nil =>
      rw [houts] at hhead
      cases hhead
  | cons x rest =>
      rw [houts] at hhead hlen
      cases hhead
      have hrest : rest = [] := List.eq_nil_of_length_eq_zero (by
        rw [List.length_cons] at hlen
        omega)
      simp [hrest, hne]

/-- Each output is either still produced or becomes a constant. -/
theorem count_constants {ns : List Node} (fits : ∀ n ∈ ns, n.Fits) (x : String) :
    ((ns.filterMap (constant? version)).map Initializer.name).count x +
      ((ns.filter fun n => (n.constant? version).isNone).flatMap presentOutputs).count x =
        (ns.flatMap presentOutputs).count x := by
  induction ns with
  | nil => rfl
  | cons n rest ih =>
      have ih := ih fun m hm => fits m (List.mem_cons_of_mem _ hm)
      rw [List.filterMap_cons, List.filter_cons, List.flatMap_cons, List.count_append]
      cases hc : n.constant? version with
      | none =>
          simp only [Option.isNone_none, if_true, List.flatMap_cons, List.count_append]
          omega
      | some i =>
          have houts := presentOutputs_of_constant? (fits n List.mem_cons_self) hc
          simp only [Option.isNone_some, Bool.false_eq_true, if_false, List.map_cons,
            List.count_cons, houts, List.count_nil]
          omega

end Node

namespace Graph

variable {g : Graph}

/-- The constants that nodes stand for. -/
def nodeConstants (version : Option Int64) (g : Graph) : List Initializer :=
  (g.nodes.filterMap (Node.constant? version)).reverse

theorem mem_nodeConstants {version : Option Int64} {i : Initializer} :
    i ∈ g.nodeConstants version ↔ ∃ n ∈ g.nodes, n.constant? version = some i := by
  rw [nodeConstants, List.mem_reverse, List.mem_filterMap]

theorem lowerConstants_eq (version : Option Int64) (g : Graph) :
    g.lowerConstants version =
      { g with
        nodes := g.nodes.filter fun n => (n.constant? version).isNone
        initializers := addInitializers g.initializers (g.nodeConstants version) } := by
  rw [lowerConstants, setInitializers_eq]
  rfl

/-- What was produced before is produced still or is a constant. -/
theorem count_nodeConstants (fits : ∀ n ∈ g.nodes, n.Fits) (version : Option Int64) (x : String) :
    ((g.nodeConstants version).map Initializer.name).count x +
      (g.lowerConstants version).produced.count x = g.produced.count x := by
  rw [nodeConstants, List.map_reverse, List.count_reverse, lowerConstants_eq]
  exact Node.count_constants fits x

/-- Nodes that stand for constants can be made initializers. -/
theorem lowerConstants_reduces (separate : g.Separate) (fits : ∀ n ∈ g.nodes, n.Fits)
    (version : Option Int64) : g.Reduces (g.lowerConstants version) := by
  have hcounts := count_nodeConstants fits version
  have hkept : (g.nodes.filter fun n => (n.constant? version).isNone).Sublist g.nodes :=
    List.filter_sublist
  rw [lowerConstants_eq] at hcounts ⊢
  unfold produced at hcounts
  dsimp only at hcounts
  generalize g.nodeConstants version = values at hcounts ⊢
  generalize (g.nodes.filter fun n => (n.constant? version).isNone) = kept at hcounts hkept ⊢
  have hcount := count_addInitializers_le g.initializers values
  have hmem := fun x => @mem_names_addInitializers g.initializers values x
  generalize addInitializers g.initializers values = is at hcount hmem
  have hproduced : ∀ x, x ∈ g.produced ↔
      x ∈ values.map Initializer.name ∨ x ∈ kept.flatMap Node.presentOutputs := by
    intro x
    have := hcounts x
    change _ = g.produced.count x at this
    rw [← List.count_pos_iff, ← List.count_pos_iff, ← List.count_pos_iff]
    omega
  refine Reduces.of_parts (fun x => ?_) (fun x hx => ?_) (fun x hx => ?_) fun m hm x hx => ?_
  · have first := hcount x
    have second := hcounts x
    have third := (hkept.flatMap Node.innerNames).count_le x
    change _ = g.produced.count x at second
    change _ ≤ g.initializerNames.count x + _ at first
    change _ ≤ g.innerNames.count x at third
    rw [count_made]
    omega
  · refine (hmem x).trans (or_iff_left fun hv => ?_)
    exact separate.inputs x hx (List.mem_append_left _ ((hproduced x).2 (Or.inl hv)))
  · rcases hx with hx | hx
    · exact Or.inl ((hmem x).2 (Or.inl hx))
    · exact ((hproduced x).1 hx).imp_left fun hv => (hmem x).2 (Or.inr hv)
  · exact Or.inr (Or.inr ⟨m, hkept.subset hm, hx⟩)

theorem nodes_lowerConstants_sublist (version : Option Int64) (g : Graph) :
    (g.lowerConstants version).nodes.Sublist g.nodes := by
  rw [lowerConstants_eq]
  exact List.filter_sublist

theorem lowerConstants_sound (sound : g.Sound) (version : Option Int64) :
    (g.lowerConstants version).Sound ∧ g.Reduces (g.lowerConstants version) := by
  have reduces := lowerConstants_reduces sound.separate
    (fun n hn => (sound.deepRegular hn).regular.fits) version
  have sub := (nodes_lowerConstants_sublist version g).subset
  refine ⟨sound_iff.2 ⟨sound.separate.reduce reduces, fun n hn => sound.deepRegular (sub hn),
    sound.acyclic.subset fun n hn => sub hn, ?_⟩, reduces⟩
  rw [lowerConstants_eq]
  refine ⟨sound.storable.unknown, fun i hi => ?_, sound.storable.inputs, sound.storable.outputs,
    sound.storable.valueInfo⟩
  refine (mem_addInitializers hi).elim (sound.storable.initializers i) fun hv => ?_
  obtain ⟨n, hn, hc⟩ := mem_nodeConstants.1 hv
  obtain ⟨-, -, -, hne, hread⟩ := Node.constant?_eq_some hc
  exact ⟨hne, Operator.storable_of_ofNode (sound.deepRegular hn).regular.storable hread _ rfl⟩

end Graph

/-! ## Single nodes -/

/-- The nodes that take the place of a node. -/
def Folding.nodes : Folding → List Node
  | constants _ => []
  | branch nodes _ => nodes

/-- The initializers that take the place of a node. -/
def Folding.values : Folding → List Initializer
  | constants values => values
  | branch _ initializers => initializers

theorem Node.DeepRegular.fullyStorable {n : Node} (h : n.DeepRegular) {p : String × Graph}
    (hp : p ∈ n.subgraphs) : p.2.Everywhere Graph.FullyStorable :=
  (h.inside p hp).mono fun _ hg => ⟨hg.storable, fun m hm => (hg.nodes m hm).storable⟩

/-- Constants for all outputs can take the place of a node. -/
theorem Node.expands_constants {n : Node} {values : List Initializer}
    (names : values.map Initializer.name = n.presentOutputs) : n.Expands [] values := by
  refine ⟨fun x => ?_, fun x hx => Or.inl (names ▸ hx), by simp, fun _ => 0, fun m hm => by cases hm⟩
  rw [names, List.flatMap_nil, List.flatMap_nil, List.count_nil]
  omega

theorem Initializer.storable_of_names {n : Node} {values : List Initializer}
    (names : values.map Initializer.name = n.presentOutputs)
    (storable : ∀ v ∈ values, v.value.Storable) : ∀ v ∈ values, v.Storable := by
  intro v hv
  have hmem : v.name ∈ n.presentOutputs := names ▸ List.mem_map_of_mem hv
  exact ⟨(Node.mem_presentOutputs.1 hmem).2, storable v hv⟩

namespace FoldContext

variable {c : FoldContext} {constants : Scope Tensor} {n : Node} {f : Folding}

/-! ### Where foldings come from -/

/-- A node is replaced by a branch, by what it computes, or by what is known of it. -/
theorem fold_eq_ok (h : c.fold constants n = .ok (some f)) :
    (∃ condition, n.opType = "If" ∧ n.isDefaultDomain ∧ c.condition? constants n = some condition ∧
      n.inlineBranch? condition = some f) ∨
    ((∀ x ∈ n.reads, ∃ t, c.constant? constants x = some t) ∧
      c.evaluate constants n = .ok (some f)) ∨
    c.inferred? n = some f := by
  unfold fold at h
  dsimp only at h
  split at h
  · cases h
  · rename_i hdomain
    split at h
    · rename_i folding hinlined
      cases h
      split at hinlined
      · rename_i hop
        obtain ⟨condition, hcondition, hinline⟩ := Option.bind_eq_some_iff.1 hinlined
        refine Or.inl ⟨condition, hop, ?_, hcondition, hinline⟩
        simp only [Bool.or_eq_true, not_or, Bool.not_eq_true', Bool.not_eq_false] at hdomain
        exact hdomain.1
      · cases hinlined
    · split at h
      · rename_i hall
        refine Or.inr (Or.inl ⟨fun x hx => ?_, h⟩)
        exact Option.isSome_iff_exists.1 (List.all_eq_true.1 hall x hx)
      · exact Or.inr (Or.inr (by simpa using h))

/-- The outputs of a node that is evaluated become constants. -/
theorem checkOutputs_eq_ok {ts : List Tensor} (h : c.checkOutputs n ts = .ok f) :
    expectedOutputs n ≤ ts.length ∧
      f = .constants (((n.outputs.zip ts).filter fun p => p.1 ≠ "").map fun p => ⟨p.1, p.2⟩) := by
  unfold checkOutputs at h
  dsimp only at h
  split at h
  · cases h
  · rename_i hlen
    split at h
    · cases h
    · cases h
      exact ⟨Nat.le_of_not_lt hlen, rfl⟩

/-- The tensors that a node is evaluated with. -/
def arguments (c : FoldContext) (constants : Scope Tensor) (n : Node) : Inputs :=
  n.inputs.map fun name => if name = "" then none else c.constant? constants name

/-- The tensors that the nested graphs of a node see when it is evaluated. -/
def captured (c : FoldContext) (constants : Scope Tensor) (n : Node) : Scope Tensor :=
  .ofBindings (n.reads.filterMap fun name => (c.constant? constants name).map fun t => (name, t))

/-- A node that is evaluated is deterministic and so are its nested graphs. -/
theorem evaluate_eq_ok (h : c.evaluate constants n = .ok (some f)) :
    ∃ operator ts, Operator.ofNode c.version n = .ok operator ∧ operator.isDeterministic ∧
      (∀ p ∈ n.subgraphs, p.2.isUnpredictable c.version = false) ∧
      operator.runNode c.version noChance n (c.captured constants n) (c.arguments constants n) =
        .ok ts ∧
      c.checkOutputs n ts = .ok f := by
  unfold evaluate at h
  cases hop : Operator.ofNode c.version n with
  | error e =>
      rw [hop] at h
      cases h
  | ok operator =>
      simp only [hop, Except.mapError, bind, Except.bind] at h
      split at h
      · cases h
      · rename_i hdet
        simp only [Bool.or_eq_true, not_or, Bool.not_eq_true', Bool.not_eq_false,
          List.any_eq_true, not_exists, not_and, Bool.not_eq_true] at hdet
        cases hrun : operator.runNode c.version noChance n (c.captured constants n)
            (c.arguments constants n) with
        | error e =>
            unfold captured arguments at hrun
            rw [hrun] at h
            cases h
        | ok ts =>
            have hrun' := hrun
            unfold captured arguments at hrun'
            rw [hrun'] at h
            cases hf : c.checkOutputs n ts with
            | error e =>
                simp only [hf] at h
                cases h
            | ok f' =>
                simp only [hf] at h
                cases h
                exact ⟨operator, ts, rfl, hdet.1, hdet.2, hrun, hf⟩

/-- The outputs that are known from facts become constants. -/
theorem inferred?_eq_some (h : c.inferred? n = some f) :
    ∃ values, f = .constants values ∧ values.map Initializer.name = n.presentOutputs ∧
      ∀ v ∈ values, ∃ facts, c.facts.get? v.name = some facts ∧
        tensorOfFacts? facts = some v.value := by
  obtain ⟨operator, -, h⟩ := Option.bind_eq_some_iff.1 h
  split at h
  · cases h
  · obtain ⟨values, hvalues, h⟩ := Option.bind_eq_some_iff.1 h
    cases h
    have spec : ∀ (names : List String) (values : List Initializer),
        names.mapM (fun name => do
          return (⟨name, ← tensorOfFacts? (← c.facts.get? name)⟩ : Initializer)) = some values →
        values.map Initializer.name = names ∧ ∀ v ∈ values, ∃ facts,
          c.facts.get? v.name = some facts ∧ tensorOfFacts? facts = some v.value := by
      intro names
      induction names with
      | nil =>
          rintro values ⟨⟩
          exact ⟨rfl, by simp⟩
      | cons name rest ih =>
          intro values h
          rw [List.mapM_cons] at h
          obtain ⟨v, hv, h⟩ := Option.bind_eq_some_iff.1 h
          obtain ⟨vs, hvs, h⟩ := Option.bind_eq_some_iff.1 h
          obtain ⟨facts, hfacts, hv⟩ := Option.bind_eq_some_iff.1 hv
          obtain ⟨t, ht, hv⟩ := Option.bind_eq_some_iff.1 hv
          cases hv
          cases h
          obtain ⟨names, known⟩ := ih vs hvs
          refine ⟨by rw [List.map_cons, names], fun u hu => ?_⟩
          rcases List.mem_cons.1 hu with rfl | hu
          · exact ⟨facts, hfacts, ht⟩
          · exact known u hu
    obtain ⟨names, known⟩ := spec _ _ hvalues
    exact ⟨values, rfl, names, known⟩

/-! ### Foldings take the place of their nodes -/

theorem storable_of_constant? (houter : c.outer.Storable) (hconstants : constants.Storable)
    {name : String} {t : Tensor} (h : c.constant? constants name = some t) : t.Storable :=
  (hconstants.inside houter).get? (Option.filter_eq_some_iff.1 h).1

theorem computed_of_tensorOfFacts? {facts : Facts} {t : Tensor} (h : tensorOfFacts? facts = some t) :
    t.Computed := by
  obtain ⟨values, -, h⟩ := Option.bind_eq_some_iff.1 h
  obtain ⟨shape, -, h⟩ := Option.bind_eq_some_iff.1 h
  obtain ⟨type, -, h⟩ := Option.bind_eq_some_iff.1 h
  exact Tensor.computed_of_ofInt64s? h

theorem filter_zip_append {omitted : List String} (homitted : ∀ x ∈ omitted, x = "")
    (kept : List String) (ts : List Tensor) (h : kept.length ≤ ts.length) :
    (((kept ++ omitted).zip ts).filter fun p => p.1 ≠ "").map Prod.fst =
      (kept ++ omitted).filter (· ≠ "") := by
  induction kept generalizing ts with
  | nil =>
      have named : omitted.filter (· ≠ "") = [] :=
        List.filter_eq_nil_iff.2 fun x hx => by simp [homitted x hx]
      have paired : ((omitted.zip ts).filter fun p => p.1 ≠ "") = [] :=
        List.filter_eq_nil_iff.2 fun p hp => by
          simp [homitted p.1 (List.of_mem_zip (show (p.1, p.2) ∈ _ from hp)).1]
      rw [List.nil_append, named, paired, List.map_nil]
  | cons x kept ih =>
      cases ts with
      | nil => cases h
      | cons t ts =>
          have ih := ih ts (Nat.le_of_succ_le_succ h)
          rw [List.cons_append, List.zip_cons_cons, List.filter_cons, List.filter_cons]
          split
          · rw [List.map_cons, ih]
          · exact ih

/-- Outputs behind the last one that is asked for are omitted. -/
theorem filter_zip_outputs {ts : List Tensor} (h : expectedOutputs n ≤ ts.length) :
    ((n.outputs.zip ts).filter fun p => p.1 ≠ "").map Prod.fst = n.presentOutputs := by
  have split : n.outputs = (n.outputs.reverse.dropWhile (· = "")).reverse ++
      (n.outputs.reverse.takeWhile (· = "")).reverse := by
    rw [← List.reverse_append, List.takeWhile_append_dropWhile, List.reverse_reverse]
  unfold Node.presentOutputs
  rw [split]
  refine filter_zip_append (fun x hx => ?_) _ _ (by rwa [List.length_reverse])
  have all := List.all_takeWhile (p := fun x : String => decide (x = "")) (l := n.outputs.reverse)
  exact of_decide_eq_true (List.all_eq_true.1 all x (List.mem_reverse.1 hx))

theorem names_of_checkOutputs {ts : List Tensor} (h : c.checkOutputs n ts = .ok f) :
    f.nodes = [] ∧ f.values.map Initializer.name = n.presentOutputs := by
  obtain ⟨hlen, rfl⟩ := checkOutputs_eq_ok h
  refine ⟨rfl, ?_⟩
  unfold Folding.values
  rw [← filter_zip_outputs hlen, List.map_map]
  rfl

/-- Constants take the place of nodes that are evaluated. -/
theorem evaluate_names (h : c.evaluate constants n = .ok (some f)) :
    f.nodes = [] ∧ f.values.map Initializer.name = n.presentOutputs := by
  obtain ⟨operator, ts, -, -, -, -, hf⟩ := evaluate_eq_ok h
  exact names_of_checkOutputs hf

theorem evaluate_storable (houter : c.outer.Storable) (hconstants : constants.Storable)
    (hn : n.DeepRegular) (h : c.evaluate constants n = .ok (some f)) :
    ∀ v ∈ f.values, v.value.Storable := by
  have storable := @storable_of_constant? c constants houter hconstants
  obtain ⟨operator, ts, hop, -, -, hrun, hf⟩ := evaluate_eq_ok h
  have hts : ∀ t ∈ ts, t.Storable := by
    refine Operator.ensures_runNode hn.regular.storable (fun p hp => hn.fullyStorable hp) ?_ ?_ hop
      _ hrun
    · refine Scope.Storable.ofBindings fun p hp => ?_
      obtain ⟨name, -, hname⟩ := List.mem_filterMap.1 hp
      obtain ⟨t, ht, rfl⟩ := Option.map_eq_some_iff.1 hname
      exact storable ht
    · intro t ht
      obtain ⟨name, -, hname⟩ := List.mem_map.1 ht
      split at hname
      · cases hname
      · exact storable hname
  obtain ⟨-, rfl⟩ := checkOutputs_eq_ok hf
  intro v hv
  obtain ⟨p, hp, rfl⟩ := List.mem_map.1 hv
  exact hts p.2 (List.of_mem_zip (show (p.1, p.2) ∈ _ from (List.mem_filter.1 hp).1)).2

/-- Whatever a node is folded to can take its place. -/
theorem fold_expands {g : Graph} (separate : g.Separate) (acyclic : Node.Acyclic g.nodes)
    (hn : n ∈ g.nodes)
    (nested : n.opType = "If" →
      ∀ p ∈ n.subgraphs, Node.Acyclic p.2.nodes ∧
        ("" ∉ p.2.outputNames ∨ "" ∉ p.2.initializerNames))
    (h : c.fold constants n = .ok (some f)) : n.Expands f.nodes f.values := by
  rcases fold_eq_ok h with ⟨condition, hif, -, -, hinline⟩ | ⟨-, heval⟩ | hinferred
  · obtain ⟨b, hb, hinputs, enough, rfl⟩ := Graph.inlineBranch?_eq_some hinline
    have hp := Node.mem_subgraphs_of_graph? hb
    obtain ⟨hacyclic, nonempty⟩ := nested hif _ hp
    exact Graph.ofBranch_expands separate acyclic hn hp hinputs hacyclic nonempty enough
  · obtain ⟨hnodes, names⟩ := evaluate_names heval
    rw [hnodes]
    exact Node.expands_constants names
  · obtain ⟨values, rfl, names, -⟩ := inferred?_eq_some hinferred
    exact Node.expands_constants names

/-- Whatever a node is folded to is regular. -/
theorem fold_regular {g : Graph} (sound : g.Sound) (hn : n ∈ g.nodes) (houter : c.outer.Storable)
    (hconstants : constants.Storable) (h : c.fold constants n = .ok (some f)) :
    (∀ m ∈ f.nodes, m.DeepRegular) ∧ ∀ v ∈ f.values, v.Storable := by
  rcases fold_eq_ok h with ⟨condition, -, -, -, hinline⟩ | ⟨-, heval⟩ | hinferred
  · obtain ⟨b, hb, hinputs, enough, rfl⟩ := Graph.inlineBranch?_eq_some hinline
    have hp := Node.mem_subgraphs_of_graph? hb
    exact Graph.ofBranch_regular sound hn hp hinputs enough
  · obtain ⟨hnodes, names⟩ := evaluate_names heval
    rw [hnodes]
    exact ⟨by simp, Initializer.storable_of_names names
      (evaluate_storable houter hconstants (sound.deepRegular hn) heval)⟩
  · obtain ⟨values, rfl, names, known⟩ := inferred?_eq_some hinferred
    refine ⟨by simp [Folding.nodes], Initializer.storable_of_names names fun v hv => ?_⟩
    obtain ⟨facts, -, ht⟩ := known v hv
    exact (computed_of_tensorOfFacts? ht).storable

end FoldContext

/-! ## Whole graphs -/

/-- The constants that are known when a node was folded. -/
def Folding.addTo (known : Scope Tensor) : Folding → Scope Tensor
  | constants values => values.foldl (fun known v => known.bind v.name v.value) known
  | branch _ _ => known

namespace Graph

variable {g : Graph}

/-- What holds of the constants that are known at first, and is kept by each folding, holds of all
of them.  Each folding has what it gets from the constants that were known before it. -/
theorem findFoldings_induct {c : FoldContext} {path : String} {order : List Nat}
    {Q : Scope Tensor → Prop} {R : Nat → Node → Folding → Prop} (start : Q g.constants)
    (step : ∀ constants i n f, Q constants → g.nodes[i]? = some n →
      c.fold constants n = .ok (some f) → R i n f ∧ Q (f.addTo constants)) :
    ∀ p ∈ (g.findFoldings c path order).foldings, ∃ n, g.nodes[p.1]? = some n ∧ R p.1 n p.2 := by
  have h : ∀ p ∈ ({ constants := g.constants } : FoldState).foldings,
      ∃ n, g.nodes[p.1]? = some n ∧ R p.1 n p.2 := by simp
  have hq : Q ({ constants := g.constants } : FoldState).constants := start
  unfold findFoldings
  generalize ({ constants := g.constants } : FoldState) = s at h hq ⊢
  induction order generalizing s with
  | nil => exact h
  | cons i rest ih =>
      rw [List.foldl_cons]
      have next : ∀ n, g.nodes[i]? = some n → Q (s.step c path i n).constants ∧
          ∀ p ∈ (s.step c path i n).foldings, ∃ n, g.nodes[p.1]? = some n ∧ R p.1 n p.2 := by
        intro n hn
        unfold FoldState.step
        dsimp only
        split
        · exact ⟨hq, h⟩
        · exact ⟨hq, h⟩
        · rename_i folding hfold
          obtain ⟨hr, hq'⟩ := step s.constants i n folding hq hn hfold
          refine ⟨?_, fun p hp => ?_⟩
          · cases folding <;> exact hq'
          rcases List.mem_cons.1 hp with rfl | hp
          · exact ⟨n, hn, hr⟩
          · exact h p hp
      cases hn : g.nodes[i]? with
      | none => exact ih s h hq
      | some n => exact ih _ (next n hn).2 (next n hn).1

theorem mem_of_lookup {α β : Type} [BEq α] [LawfulBEq α] {l : List (α × β)} {a : α} {b : β}
    (h : l.lookup a = some b) : (a, b) ∈ l := by
  induction l with
  | nil => cases h
  | cons p rest ih =>
      rw [List.lookup_cons] at h
      split at h
      · rename_i heq
        cases h
        rw [eq_of_beq heq]
        exact List.mem_cons_self
      · exact List.mem_cons_of_mem _ (ih h)

theorem addFolded_some (h : Graph) (n : Node) (f : Folding) :
    h.addFolded n (some f) =
      { h with
        nodes := h.nodes ++ f.nodes
        initializers := addInitializers h.initializers f.values } := by
  cases f with
  | constants values =>
      cases h
      simp [addFolded, setInitializers_eq, Folding.nodes, Folding.values]
  | branch nodes initializers =>
      simp [addFolded, setInitializers_eq, Folding.nodes, Folding.values]

/-- What is kept when a node is replaced holds after all nodes were replaced. -/
theorem applyFoldings_induct {foldings : List (Nat × Folding)} {Q : Graph → Prop} (start : Q g)
    (step : ∀ (h : Graph) (done rest : List Node) (n : Node) (i : Nat) (f : Folding),
      h.nodes = done ++ n :: rest → g.nodes[i]? = some n → (i, f) ∈ foldings → Q h →
        Q (h.expand done f.nodes rest f.values)) :
    Q (g.applyFoldings foldings) := by
  suffices all : ∀ (rest : List (Node × Nat)) (h : Graph),
      (∀ p ∈ rest, g.nodes[p.2]? = some p.1) →
      Q { h with nodes := h.nodes ++ rest.map Prod.fst } →
        Q (rest.foldl (fun h p => h.addFolded p.1 (foldings.lookup p.2)) h) by
    refine all g.nodes.zipIdx { g with nodes := [] } (fun p hp => ?_) ?_
    · simpa using List.mem_zipIdx_iff_getElem?.1 hp
    · cases g
      simpa [List.zipIdx_map_fst] using start
  intro rest
  induction rest with
  | nil =>
      intro h _ hq
      cases h
      simpa using hq
  | cons p rest ih =>
      obtain ⟨n, i⟩ := p
      intro h indexed hq
      have hrest : ∀ q ∈ rest, g.nodes[q.2]? = some q.1 := fun q hq =>
        indexed q (List.mem_cons_of_mem _ hq)
      rw [List.map_cons] at hq
      rw [List.foldl_cons]
      dsimp only
      cases hf : foldings.lookup i with
      | none =>
          refine ih _ hrest ?_
          unfold addFolded addNode
          dsimp only
          rwa [List.append_assoc]
      | some f =>
          have next := step _ h.nodes (rest.map Prod.fst) n i f rfl (indexed _ List.mem_cons_self)
            (mem_of_lookup hf) hq
          rw [addFolded_some]
          exact ih _ hrest next

/-- Folding gives the graph itself, or the graph with foldings of its nodes in their places, sorted. -/
theorem foldConstants_eq_ok {g' : Graph} {c : FoldContext} {path : String}
    (h : (g.foldConstants c path).2 = .ok g') :
    g' = g ∨ ∃ foldings : List (Nat × Folding),
      (∀ p ∈ foldings, ∃ n, g.nodes[p.1]? = some n ∧
        ∃ constants, c.fold constants n = .ok (some p.2)) ∧
      (g.applyFoldings foldings).sortTopologically = .ok g' := by
  unfold foldConstants at h
  split at h
  · cases h
  · dsimp only at h
    split at h
    · cases h
      exact Or.inl rfl
    · refine Or.inr ⟨_, ?_, h⟩
      exact findFoldings_induct (Q := fun _ => True)
        (R := fun _ n f => ∃ constants, c.fold constants n = .ok (some f)) trivial
        fun constants _ _ _ _ _ hfold => ⟨⟨constants, hfold⟩, trivial⟩

/-- Whether a folding can take the place of a node, and is regular. -/
structure Folding.Fits (n : Node) (f : Folding) : Prop where
  expands : n.Expands f.nodes f.values
  nodes : ∀ m ∈ f.nodes, m.DeepRegular
  values : ∀ v ∈ f.values, v.Storable

theorem Storable.constants (h : g.Storable) : g.constants.Storable := by
  refine Scope.Storable.ofBindings fun p hp => ?_
  obtain ⟨i, hi, rfl⟩ := List.mem_map.1 hp
  exact (h.initializers i hi).value

theorem storable_addTo {f : Folding} {constants : Scope Tensor} (h : constants.Storable)
    (values : ∀ v ∈ f.values, v.Storable) : (f.addTo constants).Storable := by
  cases f with
  | branch => exact h
  | constants vs =>
      unfold Folding.addTo
      unfold Folding.values at values
      dsimp only at values ⊢
      induction vs generalizing constants with
      | nil => exact h
      | cons v rest ih =>
          exact ih (h.bind (values v List.mem_cons_self).value)
            fun u hu => values u (List.mem_cons_of_mem _ hu)

/-- All foldings that are found can take the place of their nodes. -/
theorem findFoldings_fit (sound : g.Sound) {c : FoldContext} (houter : c.outer.Storable)
    (path : String) (order : List Nat) :
    ∀ p ∈ (g.findFoldings c path order).foldings, ∃ n, g.nodes[p.1]? = some n ∧
      Folding.Fits n p.2 := by
  refine findFoldings_induct (Q := Scope.Storable) (R := fun _ n f => Folding.Fits n f)
    sound.storable.constants fun constants i n f hconstants hn hfold => ?_
  have hmem := List.mem_of_getElem? hn
  obtain ⟨nodes, values⟩ := FoldContext.fold_regular sound hmem houter hconstants hfold
  refine ⟨⟨FoldContext.fold_expands sound.separate sound.acyclic hmem (fun _ p hp => ?_) hfold, nodes,
    values⟩, storable_addTo hconstants values⟩
  have nested := sound.nested hmem hp
  exact ⟨nested.acyclic, Or.inr nested.storable.nonempty⟩

theorem applyFoldings_sound (sound : g.Sound) {foldings : List (Nat × Folding)}
    (fit : ∀ p ∈ foldings, ∃ n, g.nodes[p.1]? = some n ∧ Folding.Fits n p.2) :
    (g.applyFoldings foldings).Sound ∧ g.Reduces (g.applyFoldings foldings) := by
  refine applyFoldings_induct (Q := fun h => h.Sound ∧ g.Reduces h) ⟨sound, .refl g⟩
    fun h done rest n i f hnodes hn hf q => ?_
  obtain ⟨n', hn', fits⟩ := fit _ hf
  rw [hn] at hn'
  cases hn'
  exact ⟨expand_sound q.1 hnodes fits.expands fits.nodes fits.values,
    q.2.trans (expand_reduces q.1.separate hnodes fits.expands)⟩

/-- Folding succeeds with a sound graph in order. -/
theorem foldConstants_simplifies (sound : g.Sound) (sorted : Node.Sorted g.nodes) {c : FoldContext}
    (houter : c.outer.Storable) (path : String) :
    ∃ g', (g.foldConstants c path).2 = .ok g' ∧ g.Simplifies g' := by
  obtain ⟨order, horder⟩ := topologicalOrder_of_acyclic sound.acyclic
  unfold foldConstants
  rw [horder]
  dsimp only
  split
  · exact ⟨g, rfl, sound, .refl g, sorted⟩
  · obtain ⟨sound', reduces⟩ := applyFoldings_sound sound (findFoldings_fit sound houter path order)
    obtain ⟨g', hg', simplifies⟩ := sound'.sortTopologically
    exact ⟨g', hg', simplifies.sound, reduces.trans simplifies.reduces, simplifies.sorted⟩

end Graph
end TensorGraph
