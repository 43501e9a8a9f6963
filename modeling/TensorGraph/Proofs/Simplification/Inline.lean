import Mathlib.Data.List.Nodup
import TensorGraph.Proofs.Operator.Kernel
import TensorGraph.Proofs.Simplification.Expand
import TensorGraph.Proofs.Simplification.Forward
import TensorGraph.Proofs.Simplification.Rules

/-!
# Branches that are taken out of their node

Input:

* a sound graph, an `If` node of it, and the branch that is taken.

Algorithm:

* `Inlining.assign` gives the name of an output of the node to the output of the branch at the same
  position, or copies that output.

The invariant `Inlining.Assigned` says which names the branch and the copies make, and what they
read.  No name is in use before it is assigned, since the node's outputs are made by the node alone.

Main results:

* `Graph.ofBranch_expands`: the nodes of the branch can take the place of the node;
* `Graph.ofBranch_regular`: they are regular, and so are the constants of the branch.
-/

namespace TensorGraph

theorem Graph.isSome_producer? {g : Graph} {x : String} :
    (g.producer? x).isSome = true ↔ x ∈ g.produced := by
  rw [producer?, List.findIdx?_isSome, List.any_eq_true, mem_produced]
  simp only [List.contains_eq_mem, decide_eq_true_eq]

namespace Inlining

/-- The name of the output of the branch at a position. -/
def outputAt (s : Inlining) (i : Nat) : String := (s.branch.outputs[i]?.map ValueInfo.name).getD ""

theorem outputAt_ne_empty {s : Inlining} {i : Nat} (h : "" ∉ s.branch.outputNames)
    (hi : i < s.branch.outputs.length) : s.outputAt i ≠ "" := by
  unfold outputAt
  rw [List.getElem?_eq_getElem hi]
  exact fun heq => h (heq ▸ List.mem_map_of_mem (List.getElem_mem hi))

theorem outputAt_renameValue {s s' : Inlining} {current output : String} {i : Nat}
    (heq : s'.branch = s.branch.renameValue current output) (named : s.outputAt i ≠ "") :
    s'.outputAt i = substituteName current output (s.outputAt i) := by
  unfold outputAt at named ⊢
  rw [heq, Graph.renameValue_eq]
  dsimp only
  rw [List.getElem?_map]
  cases ho : s.branch.outputs[i]? with
  | none =>
      rw [ho] at named
      exact absurd rfl named
  | some o => rfl

/-- How an output gets its name: a value of the branch is renamed, or is copied. -/
inductive Step (output current : String) (s : Inlining) : Inlining → Prop
  | rename (named : current ≠ "") (fresh : ∀ m ∈ s.branch.nodes, output ∉ m.innerNames) :
    Step output current s
      { s with
        branch := s.branch.renameValue current output
        assigned := output :: s.assigned }
  | copy :
    Step output current s
      { s with
        copies := s.copies ++ [.copying current output]
        assigned := output :: s.assigned }

/-- Whether one of the outputs of a node gets its name. -/
def Assigns (l : List (String × Nat)) (s s' : Inlining) : Prop :=
  ∃ output i, (output, i) ∈ l ∧ output ≠ "" ∧ Step output (s.outputAt i) s s'

/-- A branch whose outputs get the names of the outputs of a node. -/
def ofBranch (n : Node) (b : Graph) : Inlining :=
  n.outputs.zipIdx.foldl (fun s (output, i) => s.assign output i) { branch := b }

/-- What is known of a branch when some names have been assigned to its outputs. -/
structure Assigned (b : Graph) (named : List String) (s : Inlining) : Prop where
  inputs : s.branch.inputs = []
  made : ∀ x, s.branch.made.count x + (s.copies.flatMap Node.presentOutputs).count x ≤
    b.made.count x + named.count x
  captures : ∀ x ∈ s.branch.captures, x ∈ b.captures
  assigned : ∀ x, x ∈ s.assigned ↔ x ∈ named
  found : ∀ x ∈ named, x ∈ s.branch.initializerNames ∨ x ∈ s.branch.produced ∨
    x ∈ s.copies.flatMap Node.presentOutputs
  acyclic : Node.Acyclic s.branch.nodes
  nonempty : ∀ i < b.outputs.length, s.outputAt i = "" → "" ∉ s.branch.initializerNames
  copies : ∀ m ∈ s.copies, ∃ x y, m = .copying x y ∧ y ∈ named ∧ (x = "" ∨ x ∈ b.captures ∨
      (x ∈ named ∧ (x ∈ s.branch.initializerNames ∨ x ∈ s.branch.produced)))

namespace Assigned

variable {b : Graph} {named : List String} {s : Inlining} {current output : String}

/-- Renaming an output of the branch that it defines itself. -/
theorem rename (h : Assigned b named s) (nodup : b.made.Nodup) (hne : output ≠ "")
    (hnamed : output ∉ named) (hmade : output ∉ b.made) (hcaptures : output ∉ b.captures)
    (hlocal : current ∈ s.branch.initializerNames ∨ current ∈ s.branch.produced)
    (hcur : current ≠ "") (hcurrent : current ∉ named) :
    ∃ s', Step output current s s' ∧ Assigned b (output :: named) s' ∧
      s' = { s with
        branch := s.branch.renameValue current output
        assigned := output :: s.assigned } := by
  have hfresh : output ∉ s.branch.made := by
    intro hmem
    have pos := List.count_pos_iff.2 hmem
    have le := h.made output
    rw [List.count_eq_zero.2 hmade, List.count_eq_zero.2 hnamed] at le
    omega
  have hinner : output ∉ s.branch.innerNames := fun hi =>
    hfresh (Graph.mem_made.2 (Or.inr (Or.inr hi)))
  have hinner' : ∀ m ∈ s.branch.nodes, output ∉ m.innerNames := fun m hm hi =>
    hinner (Graph.mem_innerNames.2 ⟨m, hm, hi⟩)
  have hinit : (s.branch.renameValue current output).initializerNames =
      s.branch.initializerNames.map (substituteName current output) := by
    unfold Graph.initializerNames
    rw [Graph.renameValue_eq, List.map_map, List.map_map]
    rfl
  have hprod := Graph.produced_renameValue hcur hne s.branch
  have hkeep : ∀ x, x ∈ named → (x ∈ s.branch.initializerNames ∨ x ∈ s.branch.produced) →
      (x ∈ (s.branch.renameValue current output).initializerNames ∨
        x ∈ (s.branch.renameValue current output).produced) := by
    intro x hx hmem
    have hxc : x ≠ current := fun heq => hcurrent (heq ▸ hx)
    rw [hinit, hprod]
    exact hmem.imp (fun h => mem_map_substituteName_of_ne h hxc)
      fun h => mem_map_substituteName_of_ne h hxc
  refine ⟨_, .rename hcur hinner', ?_, rfl⟩
  constructor
  case inputs =>
    dsimp only
    rw [Graph.renameValue_eq]
    dsimp only
    rw [h.inputs, List.map_nil]
  case made =>
    intro x
    dsimp only
    have le := h.made x
    have first := count_map_substituteName_le current output x s.branch.initializerNames
    have second := count_map_substituteName_le current output x s.branch.produced
    rw [Graph.count_made, hinit, hprod, Graph.innerNames_renameValue, List.count_cons]
    rw [Graph.count_made] at le
    by_cases hx : x = output
    · subst hx
      have lec := h.made current
      have one := List.nodup_iff_count.1 nodup current
      have zero : s.branch.made.count x = 0 := List.count_eq_zero.2 hfresh
      rw [Graph.count_made] at zero lec
      rw [List.count_eq_zero.2 hcurrent] at lec
      simp only [if_true, beq_self_eq_true] at first second ⊢
      omega
    · have hxo : (output == x) = false := by simpa using fun heq => hx heq.symm
      simp only [hx, if_false, hxo] at first second ⊢
      simp only [Bool.false_eq_true, if_false]
      omega
  case captures =>
    intro x hx
    have hdef : current ∈ s.branch.definedNames :=
      Graph.mem_definedNames.2 (Or.inr hlocal)
    exact h.captures x ((Graph.captures_renameValue hcur hne hdef hinner).1 hx).1
  case assigned =>
    intro x
    simp only [List.mem_cons, h.assigned]
  case found =>
    intro x hx
    rcases List.mem_cons.1 hx with rfl | hx
    · dsimp only
      rw [hinit, hprod]
      rcases hlocal with hi | hp
      · exact Or.inl (List.mem_map.2 ⟨current, hi, substituteName_self ..⟩)
      · exact Or.inr (Or.inl (List.mem_map.2 ⟨current, hp, substituteName_self ..⟩))
    · rcases h.found x hx with hi | hp | hc
      · exact (hkeep x hx (Or.inl hi)).imp_right Or.inl
      · exact (hkeep x hx (Or.inr hp)).imp_right Or.inl
      · exact Or.inr (Or.inr hc)
  case acyclic =>
    dsimp only
    rw [Graph.renameValue_eq]
    dsimp only
    obtain ⟨rank, ranks⟩ := h.acyclic
    have hread : ∀ m ∈ s.branch.nodes, output ∉ m.reads := by
      intro m hm hr
      rcases Graph.reads_subset hm hr with hdef | hcap
      · rcases Graph.mem_definedNames.1 hdef with hi | hdef
        · rw [h.inputs] at hi
          cases hi
        · exact hfresh (Graph.mem_made.2 (hdef.imp_right Or.inl))
      · exact hcaptures (h.captures output hcap)
    have hout : ∀ m ∈ s.branch.nodes, output ∉ m.presentOutputs := fun m hm ho =>
      hfresh (Graph.mem_made.2 (Or.inr (Or.inl (Graph.mem_produced.2 ⟨m, hm, ho⟩))))
    -- the new name is not in use, so it may have any rank
    have ranks' : Node.Ranks (fun x => if x = output then rank current else rank x)
        s.branch.nodes := by
      intro m hm x hx y hy
      have hxo : x ≠ output := fun heq => hread m hm (heq ▸ hx)
      have hyo : y ≠ output := fun heq => hout m hm (heq ▸ hy)
      simpa only [if_neg hxo, if_neg hyo] using ranks m hm x hx y hy
    have hco : current ≠ output := by
      rintro rfl
      exact hfresh (Graph.mem_made.2 (hlocal.imp_right Or.inl))
    exact ⟨_, ranks'.rename hcur hne (Nat.le_of_eq (by rw [if_neg hco, if_pos rfl])) hout hinner'⟩
  case nonempty =>
    intro i hi hempty hmem
    dsimp only at hmem
    rw [hinit] at hmem
    obtain ⟨x, hx, hx'⟩ := List.mem_map.1 hmem
    rw [substituteName_eq_empty_iff hcur hne] at hx'
    refine h.nonempty i hi ?_ (hx' ▸ hx)
    by_contra hat
    rw [outputAt_renameValue rfl hat] at hempty
    exact hat ((substituteName_eq_empty_iff hcur hne).1 hempty)
  case copies =>
    intro m hm
    obtain ⟨x, y, rfl, hy, hx⟩ := h.copies m hm
    refine ⟨x, y, rfl, List.mem_cons_of_mem _ hy, ?_⟩
    rcases hx with hx | hx | ⟨hx, hmem⟩
    · exact Or.inl hx
    · exact Or.inr (Or.inl hx)
    · exact Or.inr (Or.inr ⟨List.mem_cons_of_mem _ hx, hkeep x hx hmem⟩)

/-- Copying an output that comes from outside or has a name already. -/
theorem copy (h : Assigned b named s) (hne : output ≠ "")
    (hcurrent : current = "" ∨ current ∈ b.captures ∨
      (current ∈ named ∧ (current ∈ s.branch.initializerNames ∨ current ∈ s.branch.produced))) :
    Assigned b (output :: named)
      { s with
        copies := s.copies ++ [.copying current output]
        assigned := output :: s.assigned } := by
  have hout : (Node.copying current output).presentOutputs = [output] :=
    Node.presentOutputs_copying hne
  constructor
  case inputs => exact h.inputs
  case made =>
    intro x
    have le := h.made x
    simp only [List.flatMap_append, List.flatMap_cons, List.flatMap_nil, List.append_nil, hout,
      List.count_append, List.count_cons, List.count_nil]
    omega
  case captures => exact h.captures
  case assigned =>
    intro x
    simp only [List.mem_cons, h.assigned]
  case found =>
    intro x hx
    simp only [List.flatMap_append, List.flatMap_cons, List.flatMap_nil, List.append_nil, hout,
      List.mem_append]
    rcases List.mem_cons.1 hx with rfl | hx
    · exact Or.inr (Or.inr (Or.inr (List.mem_singleton_self _)))
    · exact (h.found x hx).imp_right (Or.imp_right Or.inl)
  case acyclic => exact h.acyclic
  case nonempty => exact h.nonempty
  case copies =>
    intro m hm
    rcases List.mem_append.1 hm with hm | hm
    · obtain ⟨x, y, rfl, hy, hx⟩ := h.copies m hm
      refine ⟨x, y, rfl, List.mem_cons_of_mem _ hy, hx.imp_right (Or.imp_right fun hx => ?_)⟩
      exact ⟨List.mem_cons_of_mem _ hx.1, hx.2⟩
    · refine ⟨current, output, List.mem_singleton.1 hm, List.mem_cons_self,
        hcurrent.imp_right (Or.imp_right fun hx => ?_)⟩
      exact ⟨List.mem_cons_of_mem _ hx.1, hx.2⟩

/-- One name is assigned at a time. -/
theorem assign (h : Assigned b named s) (nodup : b.made.Nodup) (hne : output ≠ "")
    (hnamed : output ∉ named) (hmade : output ∉ b.made) (hcaptures : output ∉ b.captures) {i : Nat}
    (hi : i < b.outputs.length) : Assigned b (output :: named) (s.assign output i) ∧
      Step output (s.outputAt i) s (s.assign output i) := by
  have out : s.outputAt i = "" ∨ s.outputAt i ∈ s.branch.outputNames := by
    unfold outputAt
    cases hi : s.branch.outputs[i]? with
    | none => exact Or.inl rfl
    | some v => exact Or.inr (List.mem_map.2 ⟨v, List.mem_of_getElem? hi, rfl⟩)
  unfold Inlining.assign
  rw [if_neg hne]
  change _ ∧ _
  dsimp only
  rw [← outputAt]
  have unnamed := h.nonempty i hi
  generalize s.outputAt i = current at out unnamed ⊢
  have hmem : (s.branch.producer? current).isSome = true ∨
      (s.branch.initializer? current).isSome = true ↔
        current ∈ s.branch.initializerNames ∨ current ∈ s.branch.produced := by
    rw [Graph.isSome_producer?, Graph.isSome_initializer?]
    exact or_comm
  split
  · rename_i hcond
    simp only [Bool.and_eq_true, Bool.or_eq_true, Bool.not_eq_true', hmem] at hcond
    have hcur : current ≠ "" := by
      rintro rfl
      rcases hcond.1 with hl | hp
      · exact unnamed rfl hl
      · obtain ⟨m, -, hp⟩ := Graph.mem_produced.1 hp
        exact (Node.mem_presentOutputs.1 hp).2 rfl
    obtain ⟨s', step, assigned, rfl⟩ :=
      h.rename nodup hne hnamed hmade hcaptures hcond.1 hcur fun hmem => by
        rw [List.contains_eq_mem, decide_eq_true ((h.assigned current).2 hmem)] at hcond
        cases hcond.2
    exact ⟨assigned, step⟩
  · rename_i hcond
    refine ⟨h.copy hne ?_, .copy⟩
    by_cases hlocal : current ∈ s.branch.initializerNames ∨ current ∈ s.branch.produced
    · refine Or.inr (Or.inr ⟨?_, hlocal⟩)
      by_contra hno
      refine hcond ?_
      simp only [Bool.and_eq_true, Bool.or_eq_true, Bool.not_eq_true', hmem]
      refine ⟨hlocal, ?_⟩
      rw [List.contains_eq_mem, decide_eq_false fun hin => hno ((h.assigned current).1 hin)]
    · refine out.imp_right fun hout => Or.inl (h.captures current ?_)
      refine Graph.mem_captures.2 ⟨Or.inr hout, fun hdef => ?_⟩
      rcases Graph.mem_definedNames.1 hdef with hi | hdef
      · rw [h.inputs] at hi
        cases hi
      · exact hlocal hdef

/-- All names are assigned one after the other. -/
theorem foldl (nodup : b.made.Nodup) {l : List (String × Nat)} (h : Assigned b named s)
    (inside : ∀ p ∈ l, p.2 < b.outputs.length)
    (fresh : ∀ p ∈ l, p.1 ∉ b.made ∧ p.1 ∉ b.captures ∨ p.1 = "")
    (distinct : (((l.map Prod.fst).filter (· ≠ "")) ++ named).Nodup) :
    (∃ all, Assigned b all (l.foldl (fun s (output, i) => s.assign output i) s) ∧
      ∀ x, all.count x = ((l.map Prod.fst).filter (· ≠ "")).count x + named.count x) ∧
      Relation.ReflTransGen (Assigns l) s (l.foldl (fun s (output, i) => s.assign output i) s) := by
  induction l generalizing named s with
  | nil => exact ⟨⟨named, h, fun x => by simp⟩, .refl⟩
  | cons p rest ih =>
      obtain ⟨output, i⟩ := p
      have hrest : ∀ q ∈ rest, q.1 ∉ b.made ∧ q.1 ∉ b.captures ∨ q.1 = "" := fun q hq =>
        fresh q (List.mem_cons_of_mem _ hq)
      have irest : ∀ q ∈ rest, q.2 < b.outputs.length := fun q hq =>
        inside q (List.mem_cons_of_mem _ hq)
      have weaken : ∀ {s s' : Inlining}, Assigns rest s s' → Assigns ((output, i) :: rest) s s' := by
        rintro s s' ⟨o, j, hmem, step⟩
        exact ⟨o, j, List.mem_cons_of_mem _ hmem, step⟩
      rw [List.foldl_cons]
      by_cases hne : output = ""
      · have hskip : s.assign output i = s := by
          unfold Inlining.assign
          rw [if_pos hne]
        have hfilter : (((output, i) :: rest).map Prod.fst).filter (· ≠ "") =
            (rest.map Prod.fst).filter (· ≠ "") := by
          simp [hne]
        rw [hfilter] at distinct ⊢
        dsimp only
        rw [hskip]
        obtain ⟨all, steps⟩ := ih h irest hrest distinct
        exact ⟨all, Relation.ReflTransGen.mono (fun _ _ => weaken) _ _ steps⟩
      · have hfilter : (((output, i) :: rest).map Prod.fst).filter (· ≠ "") =
            output :: (rest.map Prod.fst).filter (· ≠ "") := by
          simp [hne]
        rw [hfilter] at distinct ⊢
        obtain ⟨hmade, hcaptures⟩ := (fresh _ List.mem_cons_self).resolve_right hne
        rw [List.cons_append, List.nodup_cons, List.mem_append, not_or] at distinct
        obtain ⟨next, step⟩ := h.assign nodup hne distinct.1.2 hmade hcaptures (inside _ List.mem_cons_self)
        obtain ⟨⟨all, hall, hcount⟩, steps⟩ := ih next irest hrest (by
          rw [List.nodup_middle, List.nodup_cons, List.mem_append, not_or]
          exact distinct)
        refine ⟨⟨all, hall, fun x => ?_⟩, .head ⟨output, i, List.mem_cons_self, hne, step⟩
          (Relation.ReflTransGen.mono (fun _ _ => weaken) _ _ steps)⟩
        rw [hcount x, List.count_cons, List.count_cons]
        omega

end Assigned
end Inlining

namespace Graph

/-- A branch that is taken out of its node. -/
theorem inlineBranch?_eq_some {n : Node} {condition : Bool} {f : Folding}
    (h : n.inlineBranch? condition = some f) :
    ∃ b, n.graph? (if condition then "then_branch" else "else_branch") = some b ∧ b.inputs = [] ∧
      n.outputs.length ≤ b.outputs.length ∧
      f = .branch ((Inlining.ofBranch n b).branch.nodes ++ (Inlining.ofBranch n b).copies)
        (Inlining.ofBranch n b).branch.initializers := by
  obtain ⟨b, hb, h⟩ := Option.bind_eq_some_iff.1 h
  split at h
  · cases h
  · rename_i hcond
    simp only [Bool.or_eq_true, not_or, Bool.not_eq_true', Bool.not_eq_false,
      decide_eq_true_eq] at hcond
    cases h
    exact ⟨b, hb, List.isEmpty_iff.1 hcond.1, Nat.le_of_not_lt hcond.2, rfl⟩

section

variable {g b : Graph} {n : Node} {place : String}

/-- What a nested graph makes, its node makes inside. -/
theorem count_made_nested_le (hp : (place, b) ∈ n.subgraphs) (x : String) :
    b.made.count x ≤ n.innerNames.count x := by
  have first : b.made.count x ≤ b.allDefinitions.count x := by
    rw [count_allDefinitions]
    omega
  refine Nat.le_trans first ?_
  unfold Node.innerNames
  rw [List.flatMap_def]
  exact (List.sublist_flatten_of_mem
    (List.mem_map_of_mem (f := fun p => p.2.allDefinitions) hp)).count_le x

/-- A node makes nothing twice. -/
theorem Separate.count_node_le (separate : g.Separate) (hn : n ∈ g.nodes) (x : String) :
    n.presentOutputs.count x + n.innerNames.count x ≤ 1 := by
  have le := separate.count_made_le x
  obtain ⟨s, t, hst⟩ := List.append_of_mem hn
  rw [count_made] at le
  unfold produced innerNames at le
  rw [hst] at le
  simp only [List.flatMap_append, List.flatMap_cons, List.count_append] at le
  omega

/-- No nested graph reads what its node makes. -/
theorem not_mem_captures_of_acyclic (acyclic : Node.Acyclic g.nodes) (hn : n ∈ g.nodes)
    (hp : (place, b) ∈ n.subgraphs) {x : String} (hx : x ∈ n.presentOutputs) : x ∉ b.captures := by
  obtain ⟨rank, ranks⟩ := acyclic
  exact fun hc => Nat.lt_irrefl _ (ranks n hn x (Node.mem_reads.2 (Or.inr ⟨_, hp, hc⟩)) x hx)

/-- All outputs of a branch get their names. -/
theorem ofBranch_assigned (separate : g.Separate) (acyclic : Node.Acyclic g.nodes) (hn : n ∈ g.nodes)
    (hp : (place, b) ∈ n.subgraphs) (hinputs : b.inputs = []) (hacyclic : Node.Acyclic b.nodes)
    (nonempty : "" ∉ b.outputNames ∨ "" ∉ b.initializerNames)
    (enough : n.outputs.length ≤ b.outputs.length) :
    (∃ all, Inlining.Assigned b all (Inlining.ofBranch n b) ∧
      ∀ x, all.count x = n.presentOutputs.count x) ∧
      Relation.ReflTransGen (Inlining.Assigns n.outputs.zipIdx) { branch := b }
        (Inlining.ofBranch n b) := by
  have hone := fun x => separate.count_node_le hn x
  have hnames : (n.outputs.zipIdx.map Prod.fst).filter (· ≠ "") = n.presentOutputs := by
    rw [List.zipIdx_map_fst]
    rfl
  have start : Inlining.Assigned b [] { branch := b } :=
    ⟨hinputs, fun x => by simp, fun x hx => hx, fun x => by simp, by simp, hacyclic,
      fun i hi hempty => nonempty.resolve_left fun h => Inlining.outputAt_ne_empty h hi hempty,
      by simp⟩
  obtain ⟨⟨all, done, hcount⟩, steps⟩ := Inlining.Assigned.foldl (separate.nested hn hp).nodup
    (l := n.outputs.zipIdx) start (fun p hp' => Nat.lt_of_lt_of_le (List.snd_lt_of_mem_zipIdx hp') enough)
    (by
      intro p hp'
      by_cases hne : p.1 = ""
      · exact Or.inr hne
      · have hout : p.1 ∈ n.presentOutputs := by
          rw [← hnames]
          exact List.mem_filter.2 ⟨List.mem_map.2 ⟨p, hp', rfl⟩, by simpa using hne⟩
        refine Or.inl ⟨fun hm => ?_, not_mem_captures_of_acyclic acyclic hn hp hout⟩
        have pos : 0 < b.made.count p.1 := List.count_pos_iff.2 hm
        have pos' := List.count_pos_iff.2 hout
        have := count_made_nested_le hp p.1
        have := hone p.1
        omega) (by
      rw [hnames, List.append_nil, List.nodup_iff_count]
      intro x
      have := hone x
      omega)
  rw [hnames] at hcount
  simp only [List.count_nil, Nat.add_zero] at hcount
  exact ⟨⟨all, done, hcount⟩, steps⟩

/-- The nodes of a branch can take the place of the node. -/
theorem ofBranch_expands (separate : g.Separate) (acyclic : Node.Acyclic g.nodes) (hn : n ∈ g.nodes)
    (hp : (place, b) ∈ n.subgraphs) (hinputs : b.inputs = []) (hacyclic : Node.Acyclic b.nodes)
    (nonempty : "" ∉ b.outputNames ∨ "" ∉ b.initializerNames)
    (enough : n.outputs.length ≤ b.outputs.length) :
    n.Expands ((Inlining.ofBranch n b).branch.nodes ++ (Inlining.ofBranch n b).copies)
      (Inlining.ofBranch n b).branch.initializers := by
  obtain ⟨⟨all, done, hcount⟩, -⟩ :=
    ofBranch_assigned separate acyclic hn hp hinputs hacyclic nonempty enough
  have hbmade := count_made_nested_le hp
  have hone := fun x => separate.count_node_le hn x
  have hcaptures : ∀ x ∈ b.captures, x ∈ n.reads := fun x hx =>
    Node.mem_reads.2 (Or.inr ⟨_, hp, hx⟩)
  have hunread : ∀ x ∈ n.presentOutputs, x ∉ b.captures := fun x hx =>
    not_mem_captures_of_acyclic acyclic hn hp hx
  generalize Inlining.ofBranch n b = s at done
  have hall : ∀ x, x ∈ all ↔ x ∈ n.presentOutputs := by
    intro x
    rw [← List.count_pos_iff, ← List.count_pos_iff, hcount]
  have hcopies : s.copies.flatMap Node.innerNames = [] := by
    rw [List.flatMap_eq_nil_iff]
    intro m hm
    obtain ⟨x, y, rfl, -⟩ := done.copies m hm
    exact Node.innerNames_eq_nil rfl
  have hsep : ∀ y ∈ s.copies.flatMap Node.presentOutputs,
      y ∈ n.presentOutputs ∧ y ∉ s.branch.made := by
    intro y hy
    obtain ⟨m, hm, hout⟩ := List.mem_flatMap.1 hy
    obtain ⟨x, z, rfl, hz, -⟩ := done.copies m hm
    cases List.mem_singleton.1 (Node.mem_presentOutputs.1 hout).1
    have hyn := (hall y).1 hz
    refine ⟨hyn, fun hmade => ?_⟩
    have pos := List.count_pos_iff.2 hmade
    have pos' := List.count_pos_iff.2 hy
    have le := done.made y
    have := hbmade y
    have := hone y
    rw [hcount] at le
    omega
  have hdefined : ∀ {x}, x ∈ s.branch.definedNames →
      x ∈ s.branch.initializerNames ∨ x ∈ s.branch.produced := by
    intro x hx
    rcases mem_definedNames.1 hx with hi | hx
    · rw [done.inputs] at hi
      cases hi
    · exact hx
  have hreads : ∀ m ∈ s.branch.nodes ++ s.copies, ∀ x ∈ m.reads,
      x ∈ s.branch.initializerNames ∨ x ∈ s.branch.produced ∨ x ∈ b.captures := by
    intro m hm x hx
    rcases List.mem_append.1 hm with hm | hm
    · rcases reads_subset hm hx with hdef | hcap
      · exact (hdefined hdef).imp_right Or.inl
      · exact Or.inr (Or.inr (done.captures x hcap))
    · obtain ⟨z, y, rfl, -, hz⟩ := done.copies m hm
      obtain ⟨rfl, hne⟩ := Node.mem_reads_copying.1 hx
      rcases hz with hz | hz | ⟨-, hz⟩
      · exact absurd hz hne
      · exact Or.inr (Or.inr hz)
      · exact hz.imp_right Or.inl
  constructor
  case made =>
    intro x
    have le := done.made x
    have := hbmade x
    rw [count_made, hcount] at le
    rw [List.flatMap_append, List.flatMap_append, hcopies, List.append_nil, List.count_append]
    change s.branch.initializerNames.count x +
      (s.branch.produced.count x + (s.copies.flatMap Node.presentOutputs).count x) +
        s.branch.innerNames.count x ≤ _
    omega
  case keeps =>
    intro x hx
    rw [List.flatMap_append, List.mem_append]
    exact done.found x ((hall x).2 hx)
  case reads =>
    intro m hm x hx
    rw [List.flatMap_append, List.mem_append]
    rcases hreads m hm x hx with h | h | h
    · exact Or.inl h
    · exact Or.inr (Or.inl (Or.inl h))
    · exact Or.inr (Or.inr (hcaptures x h))
  case acyclic =>
    refine done.acyclic.append fun m hm y hy => ?_
    obtain ⟨hyn, hmade⟩ := hsep y (List.mem_flatMap.2 ⟨m, hm, hy⟩)
    refine ⟨fun hp => hmade (mem_made.2 (Or.inr (Or.inl hp))), fun k hk hr => ?_⟩
    rcases hreads k hk y hr with h | h | h
    · exact hmade (mem_made.2 (Or.inl h))
    · exact hmade (mem_made.2 (Or.inr (Or.inl h)))
    · exact hunread y hyn h

/-- A property that outputs keep when they get their names holds of the nodes of the branch and of the
copies. -/
theorem ofBranch_induct {Q : Inlining → Prop} (separate : g.Separate)
    (acyclic : Node.Acyclic g.nodes) (hn : n ∈ g.nodes) (hp : (place, b) ∈ n.subgraphs)
    (hinputs : b.inputs = []) (hacyclic : Node.Acyclic b.nodes)
    (nonempty : "" ∉ b.outputNames ∨ "" ∉ b.initializerNames)
    (enough : n.outputs.length ≤ b.outputs.length) (start : Q { branch := b })
    (step : ∀ s s', Inlining.Assigns n.outputs.zipIdx s s' → Q s → Q s') :
    Q (Inlining.ofBranch n b) := by
  obtain ⟨-, steps⟩ := ofBranch_assigned separate acyclic hn hp hinputs hacyclic nonempty enough
  generalize Inlining.ofBranch n b = s at steps ⊢
  induction steps with
  | refl => exact start
  | tail _ last ih => exact step _ _ last ih

theorem Storable.nonempty {g : Graph} (h : g.Storable) : "" ∉ g.initializerNames := by
  intro hmem
  obtain ⟨i, hi, heq⟩ := List.mem_map.1 hmem
  exact (h.initializers i hi).name heq

/-- What takes the place of a node is regular. -/
theorem ofBranch_regular (sound : g.Sound) (hn : n ∈ g.nodes) (hp : (place, b) ∈ n.subgraphs)
    (hinputs : b.inputs = []) (enough : n.outputs.length ≤ b.outputs.length) :
    (∀ m ∈ (Inlining.ofBranch n b).branch.nodes ++ (Inlining.ofBranch n b).copies, m.DeepRegular) ∧
      ∀ v ∈ (Inlining.ofBranch n b).branch.initializers, v.Storable := by
  have hsound : b.Sound := sound.nested hn hp
  have copying : ∀ x y, (Node.copying x y).DeepRegular := fun x y =>
    .of_plain rfl rfl (by simp [Node.copying]) (Nat.le_refl 1)
  refine ofBranch_induct (Q := fun s => (∀ m ∈ s.branch.nodes ++ s.copies, m.DeepRegular) ∧
      ∀ v ∈ s.branch.initializers, v.Storable)
    sound.separate sound.acyclic hn hp hinputs hsound.acyclic (Or.inr hsound.storable.nonempty) enough
    ⟨?_, ?_⟩ ?_
  · intro m hm
    rw [List.append_nil] at hm
    exact hsound.deepRegular hm
  · exact hsound.storable.initializers
  · rintro s s' ⟨output, i, -, hne, step⟩ ⟨nodes, values⟩
    rw [List.forall_mem_append] at nodes
    cases step with
    | copy =>
        refine ⟨?_, values⟩
        simp only [List.forall_mem_append, List.forall_mem_singleton]
        exact ⟨nodes.1, nodes.2, copying _ _⟩
    | rename named fresh =>
        simp only [List.forall_mem_append]
        refine ⟨⟨fun m hm => ?_, nodes.2⟩, fun v hv => ?_⟩
        · rw [renameValue_eq] at hm
          obtain ⟨k, hk, rfl⟩ := List.mem_map.1 hm
          exact (nodes.1 k hk).rename named hne (fresh k hk)
        · rw [renameValue_eq] at hv
          obtain ⟨j, hj, rfl⟩ := List.mem_map.1 hv
          refine ⟨fun hempty => (values j hj).name ?_, (values j hj).value⟩
          exact (substituteName_eq_empty_iff named hne).1 hempty

end

end Graph
end TensorGraph
