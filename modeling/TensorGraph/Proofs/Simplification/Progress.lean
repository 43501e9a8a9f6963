import TensorGraph.Proofs.Simplification.Sweep

/-!
# Progress of sweeps

Input:

* a graph, and anything that proposes changes of its nodes.

Algorithm:

* a sweep is a run of steps (`SweepRun`), in each of which one node is offered.  It is kept, or changed, or
  the change that was proposed for it fails (`SweepStep`);
* each node has an origin: its index in the graph that the sweep began with, or none if it was put in.

The invariant is `SweepPoint.After`: behind the next index there are exactly the nodes of the first graph
that were not offered yet, with other names at most.

Main result:

* `sweep_offers_each_node_once`: each step leaves fewer nodes to offer, and a sweep offers each node of the
  first graph once, in order, and no node that was put in.
-/

namespace TensorGraph

/-! ## Nodes with other names -/

/-- Whether a node is another one in which names were exchanged for others. -/
inductive Node.Renamed (n : Node) : Node → Prop where
  | refl : n.Renamed n
  | redirect {m : Node} (h : n.Renamed m) (old new : String) : n.Renamed (m.redirect old new)
  | rename {m : Node} (h : n.Renamed m) (old new : String) : n.Renamed (m.rename old new)

theorem Node.Renamed.trans {n m k : Node} (h : n.Renamed m) (h' : m.Renamed k) : n.Renamed k := by
  induction h' with
  | refl => exact h
  | redirect _ old new ih => exact .redirect ih old new
  | rename _ old new ih => exact .rename ih old new

theorem Node.forall₂_renamed_refl (nodes : List Node) : List.Forall₂ Node.Renamed nodes nodes :=
  List.forall₂_same.2 fun _ _ => .refl

theorem Node.forall₂_renamed_trans {first second third : List Node}
    (h : List.Forall₂ Node.Renamed first second) (h' : List.Forall₂ Node.Renamed second third) :
    List.Forall₂ Node.Renamed first third := by
  induction h generalizing third with
  | nil =>
      cases h'
      exact .nil
  | cons hn _ ih =>
      cases h' with
      | cons hm rest => exact .cons (hn.trans hm) (ih rest)

namespace Graph

theorem nodes_renameValue (g : Graph) (old new : String) :
    (g.renameValue old new).nodes = g.nodes.map (Node.rename old new) := by
  rw [renameValue, replaceUses_eq]
  exact List.map_map

theorem renamed_forwardValue (g : Graph) (pair : String × String) :
    List.Forall₂ Node.Renamed g.nodes (g.forwardValue pair).nodes := by
  unfold forwardValue
  split
  · rw [nodes_renameValue, List.forall₂_map_right_iff, List.forall₂_same]
    exact fun n _ => .rename .refl _ _
  · rw [replaceUses_eq, List.forall₂_map_right_iff, List.forall₂_same]
    exact fun n _ => .redirect .refl _ _

/-- Forwarding the outputs of a node removes it, and changes names in the others. -/
theorem renamed_forwardNode (g : Graph) (index : Nat) (pairs : List (String × String)) :
    List.Forall₂ Node.Renamed (g.nodes.eraseIdx index) (g.forwardNode index pairs).nodes := by
  have fold : ∀ g' : Graph,
      List.Forall₂ Node.Renamed g'.nodes (pairs.foldl forwardValue g').nodes := by
    induction pairs with
    | nil => exact fun g' => Node.forall₂_renamed_refl g'.nodes
    | cons pair rest ih =>
        intro g'
        exact Node.forall₂_renamed_trans (renamed_forwardValue g' pair) (ih _)
  exact fold { g with nodes := g.nodes.eraseIdx index }

end Graph

/-- A change puts nodes in place of one, and changes names in the others at most. -/
theorem Change.exists_nodes_of_apply {r : Change} {g g' : Graph} {index count : Nat}
    (h : index < g.nodes.length) (done : r.apply g index = .ok (g', count)) :
    ∃ front news back, g'.nodes = front ++ news ++ back ∧ news.length = count ∧
      List.Forall₂ Node.Renamed (g.nodes.take index) front ∧
      List.Forall₂ Node.Renamed (g.nodes.drop (index + 1)) back := by
  cases r with
  | forward pairs =>
      cases done
      have renamed := g.renamed_forwardNode index pairs
      rw [List.eraseIdx_eq_take_drop_succ] at renamed
      have hlength : (g.nodes.take index).length = index := List.length_take_of_le (Nat.le_of_lt h)
      have hfront := List.forall₂_take index renamed
      have hback := List.forall₂_drop index renamed
      rw [List.take_left' hlength] at hfront
      rw [List.drop_left' hlength] at hback
      exact ⟨_, [], _, by rw [List.append_nil, List.take_append_drop], rfl, hfront, hback⟩
  | replace nodes initializers =>
      cases hreplace : g.replaceNode index nodes with
      | error m =>
          rw [apply, hreplace] at done
          cases done
      | ok g'' =>
          rw [apply, hreplace] at done
          cases done
          have hnodes := (Graph.replaceNode_eq_ok (List.getElem?_eq_getElem h) hreplace).1
          refine ⟨_, nodes, _, ?_, rfl, Node.forall₂_renamed_refl _, Node.forall₂_renamed_refl _⟩
          rw [Graph.nodes_setInitializers, hnodes]

/-! ## Steps -/

/-- What becomes of a node that is offered. -/
inductive Verdict where
  | kept
  /-- The change that a rule proposed was made. -/
  | changed (rule : Rule)
  /-- The change that a rule proposed could not be made. -/
  | failed (rule : Rule) (why : Malformation)

/-- A node that is offered, with its index in the graph that the sweep began with, unless it was put in. -/
structure Offer where
  node : Node
  origin : Option Nat
  verdict : Verdict

namespace Offer

def isChanged (o : Offer) : Bool :=
  match o.verdict with
  | .changed _ => true
  | _ => false

/-- What is noted about an offer. -/
def note? (path : String) (o : Offer) : Option Note :=
  match o.verdict with
  | .kept => none
  | .changed rule => some
    { level := .info, graph := path, node := o.node.displayName, text := "applied " ++ rule.name }
  | .failed rule why => some
    { level := .info, graph := path, node := o.node.displayName,
      text := "skipped " ++ rule.name ++ ": malformed graph: " ++ why.message }

end Offer

/-- A sweep between two offers. -/
structure SweepPoint where
  /-- The index of the node that is offered next. -/
  index : Nat
  state : SweepState
  /-- The origins of the nodes. -/
  origins : List (Option Nat)

namespace SweepPoint

/-- Where a sweep begins. -/
def start (s : SweepState) : SweepPoint :=
  ⟨0, s, (List.range s.graph.nodes.length).map some⟩

/-- The number of nodes from the next index to the end. -/
def remaining (p : SweepPoint) : Nat := p.state.graph.nodes.length - p.index

end SweepPoint

/-- One step of a sweep.  The node at the next index is offered, and the sweep goes on behind it or behind
what it was replaced by. -/
inductive SweepStep (propose : Proposer) (path : String) : SweepPoint → Offer → SweepPoint → Prop where
  | keep {index : Nat} {s : SweepState} {origins : List (Option Nat)} {n : Node}
      {taken : List String} (next : s.graph.nodes[index]? = some n)
      (proposed : propose s.graph index n s.taken = (taken, none)) :
      SweepStep propose path ⟨index, s, origins⟩ ⟨n, origins[index]?.join, .kept⟩
        ⟨index + 1, { s with taken := taken }, origins⟩
  | change {index count : Nat} {s : SweepState} {origins : List (Option Nat)} {n : Node}
      {taken : List String} {p : Proposal} {g : Graph} (next : s.graph.nodes[index]? = some n)
      (proposed : propose s.graph index n s.taken = (taken, some p))
      (done : p.change.apply s.graph index = .ok (g, count)) :
      SweepStep propose path ⟨index, s, origins⟩ ⟨n, origins[index]?.join, .changed p.rule⟩
        ⟨index + count,
          ({ s with taken := taken, graph := g } : SweepState).note path n
            ("applied " ++ p.rule.name),
          origins.take index ++ List.replicate count none ++ origins.drop (index + 1)⟩
  | fail {index : Nat} {s : SweepState} {origins : List (Option Nat)} {n : Node}
      {taken : List String} {p : Proposal} {why : Malformation}
      (next : s.graph.nodes[index]? = some n)
      (proposed : propose s.graph index n s.taken = (taken, some p))
      (failed : p.change.apply s.graph index = .error why) :
      SweepStep propose path ⟨index, s, origins⟩ ⟨n, origins[index]?.join, .failed p.rule why⟩
        ⟨index + 1,
          ({ s with taken := taken } : SweepState).note path n
            ("skipped " ++ p.rule.name ++ ": malformed graph: " ++ why.message),
          origins⟩

section

variable {propose : Proposer} {path : String} {p q r : SweepPoint} {o : Offer} {os : List Offer}

/-- Each step leaves one node less to offer. -/
theorem SweepStep.remaining_add_one (h : SweepStep propose path p o q) :
    q.remaining + 1 = p.remaining := by
  cases h with
  | keep next proposed =>
      obtain ⟨hindex, -⟩ := List.getElem?_eq_some_iff.1 next
      simp only [SweepPoint.remaining]
      omega
  | change next proposed done =>
      obtain ⟨hindex, -⟩ := List.getElem?_eq_some_iff.1 next
      have hlength := Change.apply_length hindex done
      simp only [SweepPoint.remaining, SweepState.note]
      omega
  | fail next proposed failed =>
      obtain ⟨hindex, -⟩ := List.getElem?_eq_some_iff.1 next
      simp only [SweepPoint.remaining, SweepState.note]
      omega

/-- Behind the last node there is no step. -/
theorem SweepStep.index_lt (h : SweepStep propose path p o q) :
    p.index < p.state.graph.nodes.length := by
  cases h with
  | keep next proposed => exact (List.getElem?_eq_some_iff.1 next).1
  | change next proposed done => exact (List.getElem?_eq_some_iff.1 next).1
  | fail next proposed failed => exact (List.getElem?_eq_some_iff.1 next).1

/-- What a step notes. -/
theorem SweepStep.notes_eq (h : SweepStep propose path p o q) :
    q.state.notes = p.state.notes ++ (o.note? path).toList := by
  cases h with
  | keep next proposed => exact (List.append_nil _).symm
  | change next proposed done => rfl
  | fail next proposed failed => rfl

/-- A run of steps, with the nodes that are offered in them. -/
inductive SweepRun (propose : Proposer) (path : String) :
    SweepPoint → List Offer → SweepPoint → Prop where
  | refl (p : SweepPoint) : SweepRun propose path p [] p
  | step {p q r : SweepPoint} {o : Offer} {os : List Offer} (first : SweepStep propose path p o q)
      (rest : SweepRun propose path q os r) : SweepRun propose path p (o :: os) r

theorem SweepRun.remaining_add_length (h : SweepRun propose path p os q) :
    q.remaining + os.length = p.remaining := by
  induction h with
  | refl p => rfl
  | step first rest ih =>
      have := first.remaining_add_one
      rw [List.length_cons]
      omega

theorem SweepRun.notes_eq (h : SweepRun propose path p os q) :
    q.state.notes = p.state.notes ++ os.filterMap (Offer.note? path) := by
  induction h with
  | refl p => exact (List.append_nil _).symm
  | @step p q r o os first rest ih =>
      rw [ih, first.notes_eq, List.append_assoc, List.filterMap_cons]
      cases o.note? path <;> rfl

/-- A sweep is a run to a point from which there is no step. -/
theorem exists_sweepRun (propose : Proposer) (path : String) (index : Nat) (s : SweepState)
    (origins : List (Option Nat)) :
    ∃ os last, SweepRun propose path ⟨index, s, origins⟩ os last ∧
      last.state = sweepFrom propose path index s ∧
      last.state.graph.nodes.length ≤ last.index := by
  fun_induction sweepFrom propose path index s generalizing origins with
  | case1 index s hi n taken hpropose ih =>
      obtain ⟨os, last, run, hstate, hend⟩ := ih origins
      exact ⟨_, last, .step (.keep (List.getElem?_eq_getElem hi) hpropose) run, hstate, hend⟩
  | case2 index s hi n taken p hpropose s' g count happlied ih =>
      obtain ⟨os, last, run, hstate, hend⟩ := ih _
      exact ⟨_, last, .step (.change (List.getElem?_eq_getElem hi) hpropose happlied) run, hstate, hend⟩
  | case3 index s hi n taken p hpropose s' m happlied ih =>
      obtain ⟨os, last, run, hstate, hend⟩ := ih origins
      exact ⟨_, last, .step (.fail (List.getElem?_eq_getElem hi) hpropose happlied) run, hstate, hend⟩
  | case4 index s hi => exact ⟨[], _, .refl _, rfl, Nat.le_of_not_lt hi⟩

end

/-! ## Origins -/

/-- Whether an origin is right for a node: the node that was there at first is this one, with other names at
most. -/
def Graph.Traces (first : Graph) (origin : Option Nat) (m : Node) : Prop :=
  ∀ k, origin = some k → ∃ n, first.nodes[k]? = some n ∧ n.Renamed m

namespace Graph

variable {first : Graph} {origins : List (Option Nat)} {nodes nodes' : List Node}

theorem forall₂_traces_of_renamed (h : List.Forall₂ first.Traces origins nodes)
    (renamed : List.Forall₂ Node.Renamed nodes nodes') :
    List.Forall₂ first.Traces origins nodes' := by
  induction h generalizing nodes' with
  | nil =>
      cases renamed
      exact .nil
  | cons traces _ ih =>
      cases renamed with
      | cons hm rest =>
          refine .cons (fun k hk => ?_) (ih rest)
          obtain ⟨n, hn, hnm⟩ := traces k hk
          exact ⟨n, hn, hnm.trans hm⟩

theorem forall₂_traces_replicate (first : Graph) (nodes : List Node) :
    List.Forall₂ first.Traces (List.replicate nodes.length none) nodes := by
  induction nodes with
  | nil => exact .nil
  | cons n rest ih => exact .cons (fun _ => nofun) ih

theorem forall₂_traces_range (g : Graph) :
    List.Forall₂ g.Traces ((List.range g.nodes.length).map some) g.nodes := by
  rw [List.forall₂_iff_get]
  refine ⟨by simp, fun i hi hi' k hk => ?_⟩
  have hindex : i = k := by simpa using hk
  rw [← hindex]
  exact ⟨g.nodes[i], List.getElem?_eq_getElem hi', .refl⟩

end Graph

/-- Whether a number of nodes of the first graph were offered: the others are those behind the next index. -/
structure SweepPoint.After (first : Graph) (k : Nat) (p : SweepPoint) : Prop where
  traced : List.Forall₂ first.Traces p.origins p.state.graph.nodes
  pending : p.origins.drop p.index = (List.range' k (first.nodes.length - k)).map some

namespace SweepPoint.After

variable {first : Graph} {k : Nat} {p q : SweepPoint} {n : Node} {propose : Proposer} {path : String}
  {o : Offer} {os : List Offer}

theorem start (s : SweepState) : (SweepPoint.start s).After s.graph 0 := by
  refine ⟨s.graph.forall₂_traces_range, ?_⟩
  rw [SweepPoint.start, List.drop_zero, Nat.sub_zero, List.range_eq_range']

/-- The node that is offered next is the first one that was not offered yet. -/
theorem next (h : p.After first k) (hn : p.state.graph.nodes[p.index]? = some n) :
    p.origins[p.index]? = some (some k) ∧
      p.origins.drop (p.index + 1) = (List.range' (k + 1) (first.nodes.length - (k + 1))).map some := by
  have hlength := h.traced.length_eq
  obtain ⟨hindex, -⟩ := List.getElem?_eq_some_iff.1 hn
  have hpending := h.pending
  rw [List.drop_eq_getElem_cons (hlength ▸ hindex)] at hpending
  cases hrest : first.nodes.length - k with
  | zero =>
      rw [hrest] at hpending
      cases hpending
  | succ m =>
      rw [hrest, List.range'_succ, List.map_cons, List.cons.injEq] at hpending
      have hm : first.nodes.length - (k + 1) = m := by omega
      rw [hm, List.getElem?_eq_getElem (hlength ▸ hindex), hpending.1]
      exact ⟨rfl, hpending.2⟩

/-- A node that is offered is the next one of the first graph, with other names at most. -/
theorem renamed (h : p.After first k) (hn : p.state.graph.nodes[p.index]? = some n) :
    ∃ m, first.nodes[k]? = some m ∧ m.Renamed n := by
  have horigin := (h.next hn).1
  obtain ⟨hi, horigin⟩ := List.getElem?_eq_some_iff.1 horigin
  obtain ⟨hi', hnode⟩ := List.getElem?_eq_some_iff.1 hn
  have traces := (List.forall₂_iff_get.1 h.traced).2 p.index hi hi'
  rw [List.get_eq_getElem, List.get_eq_getElem, hnode] at traces
  exact traces k horigin

/-- A step offers the next node of the first graph, and then the one behind it is the next. -/
theorem step (h : p.After first k) (hstep : SweepStep propose path p o q) :
    q.After first (k + 1) ∧ o.origin = some k ∧ ∃ m, first.nodes[k]? = some m ∧ m.Renamed o.node := by
  cases hstep with
  | keep hn proposed =>
      obtain ⟨horigin, hrest⟩ := h.next hn
      exact ⟨⟨h.traced, hrest⟩, by rw [horigin]; rfl, h.renamed hn⟩
  | @change index count s origins n taken pr g hn proposed done =>
      obtain ⟨horigin, hrest⟩ := h.next hn
      obtain ⟨hindex, -⟩ := List.getElem?_eq_some_iff.1 hn
      obtain ⟨front, news, back, hnodes, rfl, hfront, hback⟩ :=
        Change.exists_nodes_of_apply hindex done
      have hlength : origins.length = s.graph.nodes.length := h.traced.length_eq
      refine ⟨⟨?_, ?_⟩, by rw [horigin]; rfl, h.renamed hn⟩
      · have before := Graph.forall₂_traces_of_renamed (List.forall₂_take index h.traced) hfront
        have behind := Graph.forall₂_traces_of_renamed (List.forall₂_drop (index + 1) h.traced) hback
        simp only [SweepState.note]
        rw [hnodes]
        exact List.rel_append
          (List.rel_append before (Graph.forall₂_traces_replicate first news)) behind
      · have hskip : (origins.take index ++ List.replicate news.length none).length =
            index + news.length := by
          rw [List.length_append, List.length_take, List.length_replicate]
          omega
        simp only
        rw [List.drop_left' hskip]
        exact hrest
  | fail hn proposed failed =>
      obtain ⟨horigin, hrest⟩ := h.next hn
      exact ⟨⟨h.traced, hrest⟩, by rw [horigin]; rfl, h.renamed hn⟩

/-- A run offers the next nodes of the first graph, one after the other. -/
theorem run (h : p.After first k) (hrun : SweepRun propose path p os q) :
    q.After first (k + os.length) ∧
      os.map Offer.origin = (List.range' k os.length).map some ∧
      List.Forall₂ Node.Renamed ((first.nodes.drop k).take os.length) (os.map Offer.node) := by
  induction hrun generalizing k with
  | refl p => exact ⟨h, rfl, .nil⟩
  | @step p q r o os hstep rest ih =>
      obtain ⟨hq, horigin, m, hm, renamed⟩ := h.step hstep
      obtain ⟨hr, horigins, hnodes⟩ := ih hq
      obtain ⟨hk, rfl⟩ := List.getElem?_eq_some_iff.1 hm
      refine ⟨?_, ?_, ?_⟩
      · rwa [List.length_cons, ← Nat.add_assoc, Nat.add_right_comm]
      · rw [List.map_cons, List.length_cons, List.range'_succ, List.map_cons, horigin, horigins]
      · rw [List.map_cons, List.length_cons, List.drop_eq_getElem_cons hk, List.take_succ_cons]
        exact .cons renamed hnodes

end SweepPoint.After

/-! ## Whole sweeps -/

/-- What some rules propose. -/
def Rule.proposer (rules : List Rule) (version : Option Int64) (facts : Scope Facts)
    (surroundings : Surroundings) : Proposer :=
  fun g index n taken => firstProposal { version, graph := g, facts, surroundings } index n rules taken

/-- From the beginning a sweep runs to the end, and offers as many nodes as there were at first. -/
theorem exists_whole_sweepRun (propose : Proposer) (path : String) (s : SweepState) :
    ∃ os last, SweepRun propose path (.start s) os last ∧ (∀ o q, ¬SweepStep propose path last o q) ∧
      last.state = sweepFrom propose path 0 s ∧ os.length = s.graph.nodes.length ∧
      last.state.notes = s.notes ++ os.filterMap (Offer.note? path) := by
  obtain ⟨os, last, run, hstate, hend⟩ := exists_sweepRun propose path 0 s
    ((List.range s.graph.nodes.length).map some)
  have hcount : last.remaining + os.length = s.graph.nodes.length := run.remaining_add_length
  have hnone : last.remaining = 0 := Nat.sub_eq_zero_of_le hend
  exact ⟨os, last, run, fun o q step => absurd step.index_lt (Nat.not_lt.2 hend), hstate, by omega,
    run.notes_eq⟩

/-- Applying rules is a whole sweep, after which initializers may be merged. -/
theorem Graph.applyRules_eq (g : Graph) (version : Option Int64) (rules : List Rule)
    (facts : Scope Facts) (surroundings : Surroundings) (path : String) :
    ∃ os last, SweepRun (Rule.proposer rules version facts surroundings) path
        (.start { graph := g, taken := surroundings.names ++ g.allNames }) os last ∧
      os.length = g.nodes.length ∧
      ((g.applyRules version rules facts surroundings path).1 = last.state.graph ∨
        (g.applyRules version rules facts surroundings path).1 =
          last.state.graph.mergeInitializers.1) ∧
      (g.applyRules version rules facts surroundings path).2.length ≤ g.nodes.length + 1 := by
  obtain ⟨os, last, run, -, hstate, hlength, hnotes⟩ :=
    exists_whole_sweepRun (Rule.proposer rules version facts surroundings) path
      { graph := g, taken := surroundings.names ++ g.allNames }
  have short : last.state.notes.length ≤ g.nodes.length := by
    rw [hnotes, List.nil_append, ← hlength]
    exact List.length_filterMap_le _ _
  have swept : sweepFrom (fun g index n taken =>
      firstProposal { version, graph := g, facts, surroundings } index n rules taken) path 0
      { graph := g, taken := surroundings.names ++ g.allNames } = last.state := hstate.symm
  refine ⟨os, last, run, hlength, ?_⟩
  unfold applyRules
  simp only [swept]
  split
  · refine ⟨Or.inr rfl, ?_⟩
    dsimp only
    split
    · omega
    · rw [List.length_append, List.length_singleton]
      omega
  · exact ⟨Or.inl rfl, Nat.le_succ_of_le short⟩

/-- A sweep ends, whatever is proposed.  Each step leaves fewer nodes from the next index to the end.  A run
from the beginning offers the nodes of the first graph in order, with other names at most, so it makes no
more changes than there were nodes, and offers none that was put in.  The run goes on to the end of the
graph, and then it has offered all of the first nodes.  So it is with any rules, and then at most initializers
are merged. -/
theorem sweep_offers_each_node_once :
    (∀ (propose : Proposer) (path : String) (p q : SweepPoint) (o : Offer),
      SweepStep propose path p o q → q.remaining < p.remaining) ∧
      (∀ (propose : Proposer) (path : String) (s : SweepState) (os : List Offer) (q : SweepPoint),
        SweepRun propose path (.start s) os q →
        q.remaining + os.length = s.graph.nodes.length ∧
        (os.filter Offer.isChanged).length ≤ s.graph.nodes.length ∧
        os.map Offer.origin = (List.range os.length).map some ∧
        List.Forall₂ Node.Renamed (s.graph.nodes.take os.length) (os.map Offer.node)) ∧
      (∀ (propose : Proposer) (path : String) (s : SweepState), ∃ os last,
        SweepRun propose path (.start s) os last ∧ (∀ o q, ¬SweepStep propose path last o q) ∧
        last.state = sweepFrom propose path 0 s ∧ os.length = s.graph.nodes.length ∧
        last.state.notes = s.notes ++ os.filterMap (Offer.note? path)) ∧
      ∀ (g : Graph) (version : Option Int64) (rules : List Rule) (facts : Scope Facts)
        (surroundings : Surroundings) (path : String), ∃ os last,
        SweepRun (Rule.proposer rules version facts surroundings) path
          (.start { graph := g, taken := surroundings.names ++ g.allNames }) os last ∧
        os.length = g.nodes.length ∧
        ((g.applyRules version rules facts surroundings path).1 = last.state.graph ∨
          (g.applyRules version rules facts surroundings path).1 =
            last.state.graph.mergeInitializers.1) ∧
        (g.applyRules version rules facts surroundings path).2.length ≤ g.nodes.length + 1 := by
  refine ⟨fun propose path p q o step => ?_, fun propose path s os q run => ?_,
    exists_whole_sweepRun, Graph.applyRules_eq⟩
  · exact Nat.lt_of_succ_le (Nat.le_of_eq step.remaining_add_one)
  · have hcount : q.remaining + os.length = s.graph.nodes.length := run.remaining_add_length
    obtain ⟨-, horigins, hnodes⟩ := (SweepPoint.After.start s).run run
    have hchanged := List.length_filter_le Offer.isChanged os
    rw [List.drop_zero] at hnodes
    exact ⟨hcount, by omega, by rw [horigins, List.range_eq_range'], hnodes⟩

/-- Proposes to make a product in two nodes, and to leave out all other nodes. -/
def spreadProducts : Proposer := fun _ _ n taken =>
  (taken, some ⟨.mergeNodes, .replace (if n.opType = "Mul" then Graph.twoProducts else []) []⟩)

/-- A product is made in two nodes, which are not offered, and then a node that is used cannot be left out.
-/
theorem sweep_offers_each_node_once_spread :
    ∃ middle last first second,
      SweepStep spreadProducts "" (.start { graph := Graph.negatesSquare, taken := [] }) first middle ∧
      SweepRun spreadProducts "" (.start { graph := Graph.negatesSquare, taken := [] })
        [first, second] last ∧
      middle.remaining < 2 ∧ last.remaining + 2 = 2 ∧ last.state.graph.nodes.length = 3 ∧
      [first.origin, second.origin] = [some 0, some 1] ∧
      List.Forall₂ Node.Renamed Graph.negatesSquare.nodes [first.node, second.node] := by
  obtain ⟨less, run, -, -⟩ := sweep_offers_each_node_once
  have done : (Change.replace Graph.twoProducts []).apply Graph.negatesSquare 0 = .ok
      ({ Graph.negatesSquare with
        nodes := Graph.twoProducts ++ Graph.negatesSquare.nodes.drop 1 }, 2) := by cbv
  have failed : (Change.replace [] []).apply { Graph.negatesSquare with
      nodes := Graph.twoProducts ++ Graph.negatesSquare.nodes.drop 1 } 2 =
      .error (.usedValueRemoved "z" "z") := by cbv
  have changes : SweepStep spreadProducts "" (.start { graph := Graph.negatesSquare, taken := [] }) _ _ :=
    .change rfl rfl done
  have whole := SweepRun.step changes (.step (.fail rfl rfl failed) (.refl _))
  obtain ⟨hcount, -, horigins, hnodes⟩ := run _ _ _ _ _ whole
  exact ⟨_, _, _, _, changes, whole, less _ _ _ _ _ changes, hcount, rfl, horigins, hnodes⟩

end TensorGraph
