import Mathlib
import TensorGraph.Proofs.Graph.Reduction

/-!
# Replacing a node by others

Input:

* a graph, the index of a node, and the nodes that take its place.

Algorithm:

* each output of the node that no new node produces is looked up in all readers, new nodes and nested
  graphs included, and in the outputs of the graph;
* only when none is used, the nodes change.

Main result:

* `Graph.replaceNode_atomic`: the graph changes as a whole or not at all, what is still read keeps a
  producer, and a valid graph stays valid.
-/

namespace TensorGraph

variable {g g' : Graph} {n : Node} {index : Nat} {news : List Node} {outer : List String}

namespace Graph

/-- A list around the element at an index. -/
theorem exists_split {α : Type} {l : List α} {i : Nat} {a : α} (h : l[i]? = some a) :
    ∃ s t, l = s ++ a :: t ∧ l.eraseIdx i = s ++ t ∧ l.take i = s ∧ l.drop (i + 1) = t := by
  obtain ⟨hi, rfl⟩ := List.getElem?_eq_some_iff.1 h
  exact ⟨l.take i, l.drop (i + 1), by simp, List.eraseIdx_eq_take_drop_succ l i, rfl, rfl⟩

/-! ## What is used afterwards -/

/-- The check looks at what the graph with the new nodes uses. -/
theorem usedAfterReplacing_iff {x : String} :
    g.usedAfterReplacing index news x = true ↔
      x ∈ ({ g with nodes := g.nodes.take index ++ news ++ g.nodes.drop (index + 1) } : Graph).uses
    := by
  unfold usedAfterReplacing
  rw [Bool.or_eq_true, List.any_eq_true, isOutput_iff, mem_uses, List.eraseIdx_eq_take_drop_succ]
  refine or_congr (exists_congr fun k => and_congr ?_ List.contains_iff_mem) Iff.rfl
  simp only [List.mem_append]
  tauto

/-- A replacement succeeds only when no used value loses its producer. -/
theorem replaceNode_eq_ok (hn : g.nodes[index]? = some n) {news : List Node}
    (done : g.replaceNode index news = .ok g') :
    g' = { g with nodes := g.nodes.take index ++ news ++ g.nodes.drop (index + 1) } ∧
      ∀ o ∈ n.presentOutputs, o ∈ news.flatMap Node.presentOutputs ∨ o ∉ g'.uses := by
  unfold replaceNode at done
  rw [hn] at done
  simp only at done
  split at done
  · cases done
  · rename_i safe
    cases done
    refine ⟨rfl, fun o ho => ?_⟩
    have := List.find?_eq_none.1 safe o ho
    simp only [Bool.and_eq_true, Bool.not_eq_true', List.contains_eq_mem, decide_eq_false_iff_not,
      not_and, usedAfterReplacing_iff] at this
    exact or_iff_not_imp_left.2 this

/-- A replacement fails at an output that is used and would lose its producer. -/
theorem replaceNode_eq_error (hn : g.nodes[index]? = some n) {m : Malformation}
    (failed : g.replaceNode index news = .error m) :
    ∃ o ∈ n.presentOutputs, o ∉ news.flatMap Node.presentOutputs ∧
      o ∈ ({ g with nodes := g.nodes.take index ++ news ++ g.nodes.drop (index + 1) } : Graph).uses ∧
      m = .usedValueRemoved n.displayName o := by
  unfold replaceNode at failed
  rw [hn] at failed
  simp only at failed
  split at failed
  · rename_i o found
    cases failed
    have lost := List.find?_some found
    simp only [Bool.and_eq_true, Bool.not_eq_true', List.contains_eq_mem, decide_eq_false_iff_not,
      usedAfterReplacing_iff] at lost
    exact ⟨o, List.mem_of_find?_eq_some found, lost.1, lost.2, rfl⟩
  · cases failed

/-! ## Changing a graph in place -/

/-- Replace a node in a graph that is held as a state.  The outputs of the node are checked one after
the other, and then the nodes change. -/
def replaceNodeInPlace (index : Nat) (news : List Node) : EStateM Malformation Graph Unit := do
  match (← get).nodes[index]? with
  | none => pure ()
  | some node =>
    forM node.presentOutputs fun o => do
      if !(news.flatMap Node.presentOutputs).contains o &&
          (← get).usedAfterReplacing index news o then
        throw (.usedValueRemoved node.displayName o)
    modify fun g => { g with nodes := g.nodes.take index ++ news ++ g.nodes.drop (index + 1) }

/-- How a change ends that makes a new state or fails, when the state is kept in place. -/
def commit {ε σ : Type} (s : σ) : Except ε σ → EStateM.Result ε σ Unit
  | .ok s' => .ok () s'
  | .error e => .error e s

/-- Checks one after the other fail at the first element that does not pass, and keep the state. -/
theorem run_forM_check {ε σ α : Type} (fails : σ → α → Bool) (fault : α → ε) (l : List α) (s : σ) :
    (forM l fun a => do if fails (← get) a then throw (fault a) : EStateM ε σ PUnit).run s =
      (l.find? (fails s)).elim (.ok () s) fun a => .error (fault a) s := by
  induction l with
  | nil => rfl
  | cons a rest ih =>
      rw [List.forM_cons, List.find?_cons, EStateM.run_bind]
      cases hfails : fails s a with
      | true => simp [hfails]
      | false => simp [hfails, ih]

/-- A replacement in place makes the new graph, or fails and keeps the graph. -/
theorem run_replaceNodeInPlace (index : Nat) (news : List Node) (g : Graph) :
    (replaceNodeInPlace index news).run g = commit g (g.replaceNode index news) := by
  unfold replaceNodeInPlace replaceNode
  rw [EStateM.run_bind]
  simp only [EStateM.run_get]
  cases g.nodes[index]? with
  | none => rfl
  | some n =>
      simp only
      rw [EStateM.run_bind, run_forM_check (fun (g : Graph) o =>
        !(news.flatMap Node.presentOutputs).contains o && g.usedAfterReplacing index news o)
        (Malformation.usedValueRemoved n.displayName)]
      cases n.presentOutputs.find? fun o =>
        !(news.flatMap Node.presentOutputs).contains o && g.usedAfterReplacing index news o <;> rfl

/-! ## Replacing keeps a graph valid -/

end Graph

/-- Whether a node runs nested graphs. -/
def Node.IsControlFlow (n : Node) : Prop :=
  n.isDefaultDomain = true ∧ (n.opType = "If" ∨ n.opType = "Loop")

instance : DecidablePred Node.IsControlFlow := fun _ => inferInstanceAs (Decidable (_ ∧ _))

theorem Node.checkControlFlow_of_not (h : ¬ n.IsControlFlow) : n.checkControlFlow = .ok () :=
  checkControlFlow_eq_ok_iff.2 fun hd =>
    ⟨fun hif => absurd ⟨hd, Or.inl hif⟩ h, fun hloop => absurd ⟨hd, Or.inr hloop⟩ h⟩

namespace Graph

/-- Whether nodes may stand for another one in a scope: they hold no graphs and need none, read
visible values or what they make themselves, and make what the node made or what is not defined yet,
each once. -/
structure Fits (g : Graph) (outer : List String) (n : Node) (news : List Node) : Prop where
  plain : ∀ k ∈ news, k.subgraphs = [] ∧ ¬ k.IsControlFlow
  visible : ∀ k ∈ news, ∀ x ∈ k.presentInputs,
    x ∈ outer ∨ x ∈ g.definedNames ∨ x ∈ news.flatMap Node.presentOutputs
  distinct : (news.flatMap Node.presentOutputs).Nodup
  new : ∀ x ∈ news.flatMap Node.presentOutputs, x ∈ n.presentOutputs ∨ x ∉ g.allDefinitions

section

variable {before after : List Node}

/-- What is produced when other nodes stand in the place of one. -/
theorem count_produced_splice (hnodes : g.nodes = before ++ n :: after) (news : List Node)
    (x : String) :
    ({ g with nodes := before ++ news ++ after } : Graph).produced.count x +
        n.presentOutputs.count x =
      g.produced.count x + (news.flatMap Node.presentOutputs).count x := by
  unfold produced
  rw [hnodes]
  simp only [List.flatMap_append, List.flatMap_cons, List.count_append]
  omega

/-- What is defined when the other nodes hold no graphs. -/
theorem count_allDefinitions_splice (hnodes : g.nodes = before ++ n :: after)
    (plain : ∀ k ∈ news, k.subgraphs = []) (x : String) :
    ({ g with nodes := before ++ news ++ after } : Graph).allDefinitions.count x +
        n.presentOutputs.count x ≤
      g.allDefinitions.count x + (news.flatMap Node.presentOutputs).count x := by
  have produced := count_produced_splice hnodes news x
  have inner : ({ g with nodes := before ++ news ++ after } : Graph).innerNames.count x ≤
      g.innerNames.count x := by
    have none : news.flatMap Node.innerNames = [] :=
      List.flatMap_eq_nil_iff.2 fun k hk => Node.innerNames_eq_nil (plain k hk)
    unfold innerNames
    rw [hnodes]
    simp only [List.flatMap_append, List.flatMap_cons, List.count_append, none, List.count_nil]
    omega
  have given : ({ g with nodes := before ++ news ++ after } : Graph).initializerNames =
      g.initializerNames := rfl
  have runtime : ({ g with nodes := before ++ news ++ after } : Graph).runtimeInputs =
      g.runtimeInputs := rfl
  rw [count_allDefinitions, count_allDefinitions, count_made, count_made, given, runtime]
  omega

/-- A value that is no longer defined was an output of the node. -/
theorem mem_presentOutputs_of_splice (hnodes : g.nodes = before ++ n :: after) {x : String}
    (hx : x ∈ g.definedNames)
    (lost : x ∉ ({ g with nodes := before ++ news ++ after } : Graph).definedNames) :
    x ∈ n.presentOutputs ∧ x ∉ news.flatMap Node.presentOutputs := by
  rw [mem_definedNames, not_or, not_or] at lost
  obtain ⟨notInput, notConstant, unmade⟩ := lost
  have made := List.count_pos_iff.2
    (((mem_definedNames.1 hx).resolve_left notInput).resolve_left notConstant)
  have gone := List.count_eq_zero.2 unmade
  have counts := count_produced_splice hnodes news x
  refine ⟨List.count_pos_iff.1 (by omega), fun hnew => unmade ?_⟩
  unfold produced
  simp only [List.flatMap_append, List.mem_append]
  exact Or.inl (Or.inr hnew)

/-- No name is defined twice when nodes that fit stand in the place of the node. -/
theorem Fits.nodup_splice (fits : g.Fits outer n news) (hnodes : g.nodes = before ++ n :: after)
    (nodup : g.allDefinitions.Nodup) :
    ({ g with nodes := before ++ news ++ after } : Graph).allDefinitions.Nodup := by
  rw [List.nodup_iff_count]
  intro x
  have counts := count_allDefinitions_splice hnodes (fun k hk => (fits.plain k hk).1) x
  have once := List.nodup_iff_count.1 nodup x
  have new := List.nodup_iff_count.1 fits.distinct x
  by_cases hx : x ∈ news.flatMap Node.presentOutputs
  · rcases fits.new x hx with hold | hnew
    · have := List.count_pos_iff.2 hold
      omega
    · have := List.count_eq_zero.2 hnew
      omega
  · have := List.count_eq_zero.2 hx
    omega

/-- What the new nodes take from outside is visible there. -/
theorem Fits.visible_of_read (fits : g.Fits outer n news) {k : Node} (hk : k ∈ news) {x : String}
    (hx : x ∈ k.reads) (undefined : x ∉ g.definedNames)
    (unmade : x ∉ news.flatMap Node.presentOutputs) : x ∈ outer := by
  have read : x ∈ k.presentInputs := by
    rcases Node.mem_reads.1 hx with h | ⟨p, hp, -⟩
    · exact h
    · rw [(fits.plain k hk).1] at hp
      cases hp
  rcases fits.visible k hk x read with h | h | h
  · exact h
  · exact absurd h undefined
  · exact absurd h unmade

end

/-- A valid graph stays valid. -/
theorem replaceNode_valid (hn : g.nodes[index]? = some n) (valid : g.validate outer = .ok ())
    (fits : g.Fits outer n news) (done : g.replaceNode index news = .ok g') :
    g'.validate outer = .ok () := by
  obtain ⟨nodup, captured, controlled⟩ := validate_eq_ok_iff.1 valid
  obtain ⟨rfl, safe⟩ := replaceNode_eq_ok hn done
  obtain ⟨before, after, hnodes, -, htake, hdrop⟩ := exists_split hn
  rw [htake, hdrop] at safe ⊢
  have hmem : ∀ k ∈ before ++ news ++ after, k ∈ news ∨ k ∈ g.nodes := by
    intro k hk
    rw [hnodes]
    simp only [List.mem_append, List.mem_cons] at hk ⊢
    tauto
  refine validate_eq_ok_iff.2
    ⟨fits.nodup_splice hnodes nodup, fun x hx => ?_, everywhere_controlled_iff.2 fun k hk => ?_⟩
  · obtain ⟨used, undefined⟩ := mem_captures.1 hx
    have hdef : x ∉ g.definedNames := by
      intro hd
      obtain ⟨hold, hnew⟩ := mem_presentOutputs_of_splice hnodes hd undefined
      exact (safe x hold).resolve_left hnew (mem_uses.2 used)
    rcases used with ⟨k, hk, hread⟩ | hout
    · rcases hmem k hk with hk | hk
      · refine fits.visible_of_read hk hread hdef fun hnew => undefined ?_
        refine mem_definedNames.2 (Or.inr (Or.inr ?_))
        unfold produced
        simp only [List.flatMap_append, List.mem_append]
        exact Or.inl (Or.inr hnew)
      · exact captured x (mem_captures.2 ⟨Or.inl ⟨k, hk, hread⟩, hdef⟩)
    · exact captured x (mem_captures.2 ⟨Or.inr hout, hdef⟩)
  · rcases hmem k hk with hk | hk
    · obtain ⟨none, plain⟩ := fits.plain k hk
      refine ⟨Node.checkControlFlow_of_not plain, fun p hp => ?_⟩
      rw [none] at hp
      cases hp
    · exact everywhere_controlled_iff.1 controlled k hk

/-- A node is replaced as a whole or not at all.  When the replacement fails, also in place, the graph
is as it was, and an output of the node that no new node produces is still used, by a node, a nested
graph or as an output.  When it succeeds, the new nodes stand in the place of the node, nothing else
changes, and each output of the node that is still used is produced by one of them.  New nodes that
fit keep the graph valid. -/
theorem replaceNode_atomic (hn : g.nodes[index]? = some n) :
    (∀ m, g.replaceNode index news = .error m →
      (replaceNodeInPlace index news).run g = .error m g ∧
      ∃ o ∈ n.presentOutputs, o ∉ news.flatMap Node.presentOutputs ∧
        ((∃ k ∈ g.nodes.take index ++ news ++ g.nodes.drop (index + 1), o ∈ k.reads) ∨
          o ∈ g.outputNames) ∧
        m = .usedValueRemoved n.displayName o) ∧
    ∀ g', g.replaceNode index news = .ok g' →
      (replaceNodeInPlace index news).run g = .ok () g' ∧
      g' = { g with nodes := g.nodes.take index ++ news ++ g.nodes.drop (index + 1) } ∧
      (∀ o ∈ n.presentOutputs, (∃ k ∈ g'.nodes, o ∈ k.reads) ∨ o ∈ g'.outputNames →
        ∃ k ∈ news, o ∈ k.presentOutputs) ∧
      ∀ outer, g.validate outer = .ok () → g.Fits outer n news → g'.validate outer = .ok () := by
  refine ⟨fun m failed => ⟨?_, ?_⟩, fun g' done => ⟨?_, ?_, fun o ho used => ?_, ?_⟩⟩
  · rw [run_replaceNodeInPlace, failed]
    rfl
  · obtain ⟨o, ho, lost, used, rfl⟩ := replaceNode_eq_error hn failed
    exact ⟨o, ho, lost, mem_uses.1 used, rfl⟩
  · rw [run_replaceNodeInPlace, done]
    rfl
  · exact (replaceNode_eq_ok hn done).1
  · have kept := ((replaceNode_eq_ok hn done).2 o ho).resolve_right
      fun unused => unused (mem_uses.2 used)
    exact List.mem_flatMap.1 kept
  · exact fun outer valid fits => replaceNode_valid hn valid fits done

/-- A graph that negates the square of its input. -/
def negatesSquare : Graph where
  inputs := [{ name := "x" }]
  nodes := [{ opType := "Mul", inputs := ["x", "x"], outputs := ["y"] },
    { opType := "Neg", inputs := ["y"], outputs := ["z"] }]
  outputs := [{ name := "z" }]

/-- Nodes that make the same value with a value between them. -/
def twoProducts : List Node :=
  [{ opType := "Identity", inputs := ["x"], outputs := ["copy"] },
    { opType := "Mul", inputs := ["copy", "x"], outputs := ["y"] }]

/-- The square can be made by two nodes, but it cannot be left out. -/
theorem replaceNode_negatesSquare :
    ∃ n, negatesSquare.nodes[0]? = some n ∧ negatesSquare.validate [] = .ok () ∧
      negatesSquare.Fits [] n twoProducts ∧
      (∃ g', (replaceNodeInPlace 0 twoProducts).run negatesSquare = .ok () g' ∧
        g'.nodes.map Node.outputs = [["copy"], ["y"], ["z"]] ∧ g'.validate [] = .ok ()) ∧
      (replaceNodeInPlace 0 []).run negatesSquare =
        .error (.usedValueRemoved "y" "y") negatesSquare := by
  have valid : negatesSquare.validate [] = .ok () := by cbv
  have fits : negatesSquare.Fits [] { opType := "Mul", inputs := ["x", "x"], outputs := ["y"] }
      twoProducts := by
    refine ⟨fun k hk => ?_, by decide, by decide, ?_⟩
    · have plain : ∀ k ∈ twoProducts, k.subgraphs.length = 0 ∧ ¬ k.IsControlFlow := by decide
      exact ⟨List.eq_nil_of_length_eq_zero (plain k hk).1, (plain k hk).2⟩
    · have names : negatesSquare.allDefinitions = ["x", "y", "z"] := by cbv
      rw [names]
      decide
  have done : negatesSquare.replaceNode 0 twoProducts =
      .ok { negatesSquare with nodes := twoProducts ++ negatesSquare.nodes.drop 1 } := by cbv
  have failed : negatesSquare.replaceNode 0 [] = .error (.usedValueRemoved "y" "y") := by cbv
  have kept := (replaceNode_atomic (rfl : negatesSquare.nodes[0]? = some _)).1 _ failed
  obtain ⟨changed, -, -, stays⟩ :=
    (replaceNode_atomic (rfl : negatesSquare.nodes[0]? = some _)).2 _ done
  exact ⟨_, rfl, valid, fits, ⟨_, changed, by decide, stays [] valid fits⟩, kept.1⟩

/-- A node that chooses between nested graphs needs them, and is no valid replacement without. -/
theorem replaceNode_by_branch :
    let branch : Node := { opType := "If", inputs := ["x"], outputs := ["y"] }
    ∃ n g', negatesSquare.nodes[0]? = some n ∧ negatesSquare.validate [] = .ok () ∧
      branch.subgraphs = [] ∧ branch.presentInputs = ["x"] ∧ "x" ∈ negatesSquare.definedNames ∧
      branch.presentOutputs = n.presentOutputs ∧
      negatesSquare.replaceNode 0 [branch] = .ok g' ∧
      g'.validate [] = .error (.controlFlow "If" "y" .missingBranch) := by
  refine ⟨_, { negatesSquare with
    nodes := { opType := "If", inputs := ["x"], outputs := ["y"] } :: negatesSquare.nodes.drop 1 },
    rfl, by cbv, rfl, by decide, by decide, by decide, by cbv, by cbv⟩

end Graph
end TensorGraph
