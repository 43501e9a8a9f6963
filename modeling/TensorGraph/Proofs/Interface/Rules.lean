import TensorGraph.Proofs.Interface.Graph
import TensorGraph.Proofs.Simplification.Sweep

/-!
# Rules keep the interface

Input:

* a graph whose inputs no node defines, and rules.

Algorithm:

* a rule forwards outputs of the node that it is offered, or puts nodes and initializers in its
  place;
* a value gets the name of an output of the graph only if another node produces it
  (`Change.isApplicable`), so it is no input.

The invariant of a sweep is that the graph keeps the interface and that the names of all inputs are
taken.

Main results:

* `Rule.propose_spares`: what a rule proposes defines no input;
* `Graph.Keeps.apply`: such a change keeps the interface;
* `Graph.Keeps.applyRules`.
-/

namespace TensorGraph

/-! ## Changes -/

/-- Whether a change of a node defines none of some names: it forwards outputs of the node, or puts in
nodes and initializers with other names. -/
def Change.Spares (names : List String) (n : Node) : Change → Prop
  | .forward pairs => ∀ p ∈ pairs, p.1 ∈ n.presentOutputs
  | .replace nodes values => (∀ m ∈ nodes, m.Spares names) ∧ ∀ v ∈ values, v.name ∉ names

/-- Whether the change that is proposed for a node, if there is one, defines none of some names. -/
def Change.Spared (names : List String) (n : Node) (proposed : Option Change) : Prop :=
  ∀ change, proposed = some change → change.Spares names n

namespace Change.Spared

variable {names : List String} {n : Node} {α : Type}

theorem none : Spared names n none := by
  rintro change ⟨⟩

theorem some {change : Change} (h : change.Spares names n) : Spared names n (some change) := by
  rintro _ ⟨⟩
  exact h

theorem bind {o : Option α} {f : α → Option Change} (next : ∀ x, o = .some x → Spared names n (f x)) :
    Spared names n (o >>= f) := by
  intro change h
  obtain ⟨x, hx, h⟩ := Option.bind_eq_some_iff.1 h
  exact next x hx change h

theorem ite {c : Prop} [Decidable c] {o : Option Change} (h : c → Spared names n o) :
    Spared names n (if c then o else .none) := by
  split
  · exact h ‹_›
  · exact none

theorem ite_none {c : Prop} [Decidable c] {o : Option Change} (h : ¬c → Spared names n o) :
    Spared names n (if c then .none else o) := by
  split
  · exact none
  · exact h ‹_›

theorem replace_one {m : Node} (h : m.Spares names) : Spared names n (.some (.replace [m] [])) :=
  some ⟨by simpa using h, by simp⟩

theorem forwardTo {x : String} : Spared names n (n.forwardTo x) := by
  refine bind fun y hy => some fun p hp => ?_
  rw [List.mem_singleton.1 hp]
  exact Node.mem_presentOutputs_of_firstOutput? hy

end Change.Spared

/-! ## Rules -/

namespace View

open Change

variable {v : View} {names : List String} {n : Node}

theorem spared_eliminateIdentity : Spared names n (v.eliminateIdentity n) :=
  .ite fun _ => .bind fun _ _ => .forwardTo

theorem spared_eliminateNopDropout : Spared names n (v.eliminateNopDropout n) :=
  .bind fun _ _ => .ite fun _ => .bind fun _ _ => .forwardTo

theorem spared_eliminateNopCast : Spared names n (v.eliminateNopCast n) :=
  .bind fun _ _ => .bind fun _ _ => .bind fun _ _ => .ite fun _ => .forwardTo

theorem spared_eliminateSameShape {opType : String} :
    Spared names n (v.eliminateSameShape opType n) :=
  .bind fun _ _ => .bind fun _ _ => .bind fun _ _ => .bind fun _ _ => .ite fun _ => .forwardTo

theorem spared_eliminateNopTranspose : Spared names n (v.eliminateNopTranspose n) :=
  .ite fun _ => .bind fun _ _ => .ite fun _ => .bind fun _ _ => .forwardTo

theorem spared_eliminateNopArithmetic : Spared names n (v.eliminateNopArithmetic n) :=
  .ite fun _ => .bind fun _ _ => .bind fun _ _ => .bind fun _ _ => .bind fun _ _ => .bind fun _ _ =>
    .bind fun _ _ => .ite fun _ => .forwardTo

theorem spared_fuseSqueezeUnsqueeze : Spared names n (v.fuseSqueezeUnsqueeze n) := by
  refine .bind fun _ _ => .bind fun ⟨_, _⟩ _ => .bind fun _ _ => .ite fun _ => ?_
  exact .bind fun _ _ => .bind fun _ _ => .bind fun _ _ => .bind fun _ _ => .bind fun _ _ =>
    .ite fun _ => .forwardTo

theorem spared_mergeNodes {index : Nat} : Spared names n (v.mergeNodes index n) := by
  intro change h
  obtain ⟨_, pairs, -, rfl, sources, -⟩ := mergeNodes_eq_some h
  intro p hp
  rw [← sources]
  exact List.mem_map_of_mem hp

theorem spared_fuseReshapes (h : n.Spares names) : Spared names n (v.fuseReshapes n) :=
  .ite fun _ => .bind fun _ _ => .bind fun _ _ => .bind fun x _ => .bind fun _ _ =>
    .bind fun _ _ => .bind fun _ _ => .ite_none fun _ => .replace_one (m := withFirstInput n x) h

theorem spared_fuseTransposes (h : n.Spares names) : Spared names n (v.fuseTransposes n) := by
  refine .bind fun _ _ => .bind fun ⟨_, _⟩ _ => .ite fun _ => .bind fun _ _ => .bind fun _ _ =>
    .ite fun _ => .bind fun _ _ => .bind fun x _ => .replace_one (h.of_subset (fun _ hx => hx) ?_)
  have kept := Node.subgraphs_setAttribute (n := withFirstInput n x)
  exact fun y hy => ((kept _ _ rfl).flatMap _).subset hy

theorem spared_fuseProductAndSum (h : n.Spares names) : Spared names n (v.fuseProductAndSum n) := by
  refine .ite fun _ => .bind fun output hout => .bind fun _ _ => .bind fun _ _ => .bind fun _ _ =>
    .bind fun _ _ => .bind fun _ _ => .bind fun _ _ => .bind fun _ _ => .bind fun _ _ =>
    .bind fun _ _ => ?_
  dsimp only
  split
  · refine .bind fun _ _ => .ite fun _ => .replace_one (h.of_subset (fun x hx => ?_) fun x hx => ?_)
    · exact Node.mem_presentOutputs_of_head? hout rfl hx
    · rw [Node.innerNames_eq_nil (Node.subgraphs_of_plain rfl)] at hx
      cases hx
  · exact .none

/-- The new convolution defines the output of the normalization and what the old convolution defines
inside, and the new constants get names that are not taken. -/
theorem spared_fuseNormalizationIntoConv (graph : ∀ m ∈ v.graph.nodes, m.Spares names)
    (h : n.Spares names) {taken : List String} (sub : ∀ x ∈ names, x ∈ taken) :
    Spared names n (v.fuseNormalizationIntoConv taken n).2 := by
  intro change h'
  obtain ⟨result, i, conv, _, _, _, output, _, _, -, hprod, -, -, houtput, hw, hb, -, rfl⟩ :=
    fuseNormalizationIntoConv_eq_some h'
  have inside := graph conv (List.mem_of_getElem? (v.computations_of result i conv hprod).1)
  refine ⟨fun m hm => ?_, fun i hi hx => ?_⟩
  · rw [List.mem_singleton.1 hm]
    exact fun y hy => ⟨fun ho => (h y hy).1 (Node.mem_presentOutputs_of_head? houtput rfl ho),
      (inside y hy).2⟩
  · have taken' := sub _ hx
    simp only [List.mem_cons, List.not_mem_nil, or_false] at hi
    rcases hi with rfl | rfl
    · exact freshName_not_mem _ _ (hw ▸ taken')
    · exact freshName_not_mem _ _ (hb ▸ List.mem_cons_of_mem _ taken')

end View

/-- What a rule proposes defines none of some names that are taken. -/
theorem Rule.propose_spares {v : View} {names taken : List String} {n : Node} {index : Nat}
    (graph : ∀ m ∈ v.graph.nodes, m.Spares names) (hn : v.graph.nodes[index]? = some n)
    (sub : ∀ x ∈ names, x ∈ taken) (r : Rule) :
    Change.Spared names n (r.propose v taken index n).2 := by
  have h := graph n (List.mem_of_getElem? hn)
  cases r with
  | eliminateIdentity => exact v.spared_eliminateIdentity
  | eliminateNopDropout => exact v.spared_eliminateNopDropout
  | eliminateNopCast => exact v.spared_eliminateNopCast
  | eliminateNopReshape => exact v.spared_eliminateSameShape
  | eliminateNopTranspose => exact v.spared_eliminateNopTranspose
  | eliminateNopExpand => exact v.spared_eliminateSameShape
  | eliminateNopArithmetic => exact v.spared_eliminateNopArithmetic
  | fuseReshapes => exact v.spared_fuseReshapes h
  | fuseTransposes => exact v.spared_fuseTransposes h
  | fuseSqueezeUnsqueeze => exact v.spared_fuseSqueezeUnsqueeze
  | fuseNormalizationIntoConv => exact v.spared_fuseNormalizationIntoConv graph h sub
  | fuseProductAndSum => exact v.spared_fuseProductAndSum h
  | mergeInitializers => exact .none
  | mergeNodes => exact v.spared_mergeNodes

/-! ## Changed graphs -/

namespace Graph.Keeps

variable {g g' h : Graph} {n : Node} {index : Nat}

/-- Forwarding a value keeps the interface.  A value that gets the name of an output is neither an
input nor an output. -/
theorem forwardValue (k : g.Keeps h) {pair : String × String} (source : pair.1 ∉ g.inputNames)
    (renamable : pair.1 ∈ g.outputNames → pair.2 ∉ g.inputNames ∧ pair.2 ∉ g.outputNames) :
    g.Keeps (h.forwardValue pair) := by
  unfold Graph.forwardValue
  split
  · rename_i hout
    rw [isOutput_iff, k.interface.outputNames] at hout
    obtain ⟨hin, hno⟩ := renamable hout
    rw [← k.interface.inputNames] at source hin
    rw [← k.interface.outputNames] at hno
    exact k.trans (.renameValue k.apart hin source hno)
  · exact k.trans (.replaceUses k.apart _ _)

/-- Removing a node whose outputs are forwarded keeps the interface. -/
theorem forwardNode (apart : g.Apart) (hn : g.nodes[index]? = some n)
    {pairs : List (String × String)} (sources : ∀ p ∈ pairs, p.1 ∈ n.presentOutputs)
    (can : g.canForward index [] pairs = true) : g.Keeps (g.forwardNode index pairs) := by
  have spares := apart n (List.mem_of_getElem? hn)
  have old : ∀ m ∈ g.nodes.eraseIdx index, m ∈ g.nodes := fun m hm => List.mem_of_mem_eraseIdx hm
  have start : g.Keeps { g with nodes := g.nodes.eraseIdx index } :=
    .of_nodes fun m hm => apart m (old m hm)
  unfold Graph.forwardNode
  refine List.foldlRecOn _ _ start fun h k p hp => k.forwardValue ?_ fun hout => ?_
  · exact fun hx => (spares _ hx).1 (sources p hp)
  · obtain ⟨elsewhere, hno⟩ := canForward_spec can p hp hout
    obtain ⟨m, hm, hx⟩ := mem_produced.1 (produced_of_isProducedElsewhere elsewhere)
    exact ⟨fun hin => (apart m (old m hm) _ hin).1 hx, hno⟩

/-- A change that defines no input keeps the interface. -/
theorem apply (apart : g.Apart) (hn : g.nodes[index]? = some n) {change : Change}
    (spares : change.Spares g.inputNames n) {version : Option Int64} {facts : Scope Facts}
    {surroundings : Surroundings}
    (applicable : change.isApplicable { version, graph := g, facts, surroundings } index = true)
    {count : Nat} (done : change.apply g index = .ok (g', count)) : g.Keeps g' := by
  cases change with
  | forward pairs =>
      cases done
      exact forwardNode apart hn spares applicable
  | replace nodes values =>
      cases hr : g.replaceNode index nodes with
      | error e => simp [Change.apply, hr, bind, Except.bind] at done
      | ok h =>
          simp only [Change.apply, hr, bind, Except.bind, pure, Except.pure, Except.ok.injEq,
            Prod.mk.injEq] at done
          obtain ⟨rfl, -⟩ := done
          obtain ⟨rfl, -⟩ := replaceNode_eq_ok hn hr
          rw [setInitializers_eq]
          refine insert (fun m hm => ?_) spares.2
          simp only [List.mem_append] at hm
          rcases hm with (hm | hm) | hm
          · exact apart m (List.mem_of_mem_take hm)
          · exact spares.1 m hm
          · exact apart m (List.mem_of_mem_drop hm)

/-- Merging equal initializers keeps the interface, since inputs are not compared. -/
theorem mergeInitializers (apart : g.Apart) : g.Keeps g.mergeInitializers.1 := by
  have inner : ∀ x ∈ g.inputNames, x ∉ g.duplicateInitializers.map Prod.fst := by
    intro x hx hmem
    obtain ⟨p, hp, rfl⟩ := List.mem_map.1 hmem
    exact ((compared_initializers g).inner p hp).1 hx
  unfold Graph.mergeInitializers
  dsimp only
  generalize g.duplicateInitializers = pairs at inner ⊢
  have redirected : g.Keeps (pairs.foldl (fun h p => h.replaceUses p.1 p.2) g) :=
    List.foldlRecOn _ _ (.refl apart) fun h k p _ => k.trans (.replaceUses k.apart p.1 p.2)
  refine redirected.trans (of_parts (fun m hm => redirected.apart m hm) fun x hx => ?_)
  rw [redirected.interface.inputNames] at hx
  simp only [initializerNames, List.mem_map, List.mem_filter, Bool.not_eq_true',
    List.contains_eq_mem, decide_eq_false_iff_not]
  constructor
  · rintro ⟨i, ⟨hi, -⟩, rfl⟩
    exact ⟨i, hi, rfl⟩
  · rintro ⟨i, hi, rfl⟩
    exact ⟨i, ⟨hi, by simpa using inner _ hx⟩, rfl⟩

/-- Applying rules keeps the interface. -/
theorem applyRules (apart : g.Apart) (rules : List Rule) (version : Option Int64)
    (facts : Scope Facts) (surroundings : Surroundings) (path : String) :
    g.Keeps (g.applyRules version rules facts surroundings path).1 := by
  have inputs : ∀ x ∈ g.inputNames, x ∈ surroundings.names ++ g.allNames := fun x hx =>
    List.mem_append_right _ (g.covered_allNames x (Or.inl hx))
  have swept := sweepFrom_induct (Q := fun taken h => g.Keeps h ∧ ∀ x ∈ g.inputNames, x ∈ taken)
    (fun g index n taken =>
      firstProposal { version, graph := g, facts, surroundings } index n rules taken)
    path 0
    (fun h n index taken q hn => ⟨q.1, fun x hx => subset_firstProposal (q.2 x hx)⟩)
    (fun h h' n index taken p count q hn hp done => ?_)
    (s := { graph := g, taken := surroundings.names ++ g.allNames })
    ⟨.refl apart, inputs⟩
  · unfold Graph.applyRules
    simp only
    split
    · exact swept.1.trans (.mergeInitializers swept.1.apart)
    · exact swept.1
  · obtain ⟨k, known⟩ := q
    obtain ⟨applicable, -, taken', sub, made⟩ := firstProposal_eq_some hp
    have spares := p.rule.propose_spares (v := { version, graph := h, facts, surroundings })
      k.apart hn (fun x hx => sub x (known x (k.interface.inputNames ▸ hx))) p.change (by rw [made])
    exact ⟨k.trans (.apply k.apart hn spares applicable done),
      fun x hx => subset_firstProposal (known x hx)⟩

end Graph.Keeps
end TensorGraph
