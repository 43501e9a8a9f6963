import TensorGraph.Proofs.Graph.Replace
import TensorGraph.Proofs.Simplification.Regular
import TensorGraph.Simplification.Change
import Mathlib.Data.List.Perm.Subperm

/-!
# Removing a node

Input:

* a graph that makes no name twice, and a node of it;
* pairs of names: what reads the first value of a pair shall read the second one.

Algorithm:

* the node is removed, and the pairs are forwarded one after the other (`Graph.forwardNode`).

The invariant of the loop (`Graph.Pending`) speaks of the names of a graph from which the node was
removed and of the pairs that are left: only their first values may be read without being defined.
Each step redirects or renames (`Graph.Forwarded`), from which follows what else it keeps.

Main results:

* `Graph.Pending.foldl`: the loop keeps names apart, and whatever each step keeps;
* `Node.Arranged.forwarded`: nodes in order stay in order;
* `Graph.forwardNode_sound`: when the pairs cover the used outputs of the node, and each second
  value comes no later than the first one, a sound graph stays sound and in order, and is reduced.
-/

namespace TensorGraph

theorem count_map_substituteName_le (old new x : String) (names : List String) :
    (names.map (substituteName old new)).count x ≤
      names.count x + if x = new then names.count old else 0 := by
  induction names with
  | nil => simp
  | cons y rest ih =>
      rw [List.map_cons, List.count_cons, List.count_cons, List.count_cons]
      by_cases hy : y = old
      · subst hy
        rw [substituteName_self]
        by_cases hx : x = new
        · subst hx
          simp only [beq_self_eq_true, if_true] at ih ⊢
          omega
        · have : ¬ new = x := fun h => hx h.symm
          simp only [hx, this, if_false, beq_iff_eq] at ih ⊢
          omega
      · rw [substituteName_of_ne hy]
        by_cases hx : x = new <;> simp only [hx, hy, if_true, if_false, beq_iff_eq] at ih ⊢ <;> omega

theorem mem_map_substituteName_of_ne {old new x : String} {names : List String} (h : x ∈ names)
    (hne : x ≠ old) : x ∈ names.map (substituteName old new) :=
  List.mem_map.2 ⟨x, h, substituteName_of_ne hne⟩

namespace Node

/-- The rank of a renamed output. -/
theorem exists_rank_rename (rank : String → Nat) {n : Node} {old new : String} (hold : old ≠ "")
    (hnew : new ≠ "") (undefined : new ∉ n.presentOutputs) {y : String}
    (hy : y ∈ (n.rename old new).presentOutputs) :
    ∃ z ∈ n.presentOutputs, (if y = new then rank old else rank y) = rank z := by
  rw [presentOutputs_rename hold hnew] at hy
  obtain ⟨z, hz, rfl⟩ := List.mem_map.1 hy
  refine ⟨z, hz, ?_⟩
  by_cases heq : z = old
  · subst heq
    simp
  · rw [substituteName_of_ne heq, if_neg]
    rintro rfl
    exact undefined hz

/-- A renamed value takes the place of the one that it is renamed to. -/
theorem Ranks.rename {rank : String → Nat} {ns : List Node} {old new : String}
    (h : Ranks rank ns) (hold : old ≠ "") (hnew : new ≠ "") (le : rank old ≤ rank new)
    (undefined : ∀ n ∈ ns, new ∉ n.presentOutputs) (fresh : ∀ n ∈ ns, new ∉ n.innerNames) :
    Ranks (fun x => if x = new then rank old else rank x) (ns.map (Node.rename old new)) := by
  intro m hm x hx y hy
  obtain ⟨n, hn, rfl⟩ := List.mem_map.1 hm
  obtain ⟨z, hz, heq⟩ := exists_rank_rename rank hold hnew (undefined n hn) hy
  show (if x = new then rank old else rank x) < (if y = new then rank old else rank y)
  rw [heq]
  rw [reads_rename] at hx
  obtain ⟨w, hw, rfl⟩ := (mem_reads_redirect hold hnew (fresh n hn)).1 hx
  have := h n hn w hw z hz
  by_cases hwo : w = old
  · subst hwo
    simpa using this
  · rw [substituteName_of_ne hwo]
    split
    · rename_i hwn
      subst hwn
      omega
    · exact this

theorem Layout.rename {rank : String → Nat} {ns : List Node} {old new : String}
    (h : Layout rank ns) (hold : old ≠ "") (hnew : new ≠ "") (le : rank old ≤ rank new)
    (undefined : ∀ n ∈ ns, new ∉ n.presentOutputs) (fresh : ∀ n ∈ ns, new ∉ n.innerNames) :
    Layout (fun x => if x = new then rank old else rank x) (ns.map (Node.rename old new)) := by
  refine ⟨h.reads.rename hold hnew le undefined fresh, ?_⟩
  rw [List.pairwise_map]
  refine h.order.imp_of_mem ?_
  intro a b ha hb hlt y hy z hz
  obtain ⟨y', hy', heq⟩ := exists_rank_rename rank hold hnew (undefined a ha) hy
  obtain ⟨z', hz', heq'⟩ := exists_rank_rename rank hold hnew (undefined b hb) hz
  rw [heq, heq']
  exact hlt y' hy' z' hz'

theorem Layout.redirect {rank : String → Nat} {ns : List Node} {old new : String}
    (h : Layout rank ns) (hold : old ≠ "") (hnew : new ≠ "") (le : rank new ≤ rank old)
    (fresh : ∀ n ∈ ns, new ∉ n.innerNames) : Layout rank (ns.map (Node.redirect old new)) := by
  refine ⟨h.reads.redirect hold hnew le fresh, ?_⟩
  rw [List.pairwise_map]
  exact h.order

theorem Layout.sublist {rank : String → Nat} {ns ms : List Node} (h : Layout rank ns)
    (sub : ms.Sublist ns) : Layout rank ms :=
  ⟨fun m hm => h.reads m (sub.subset hm), h.order.sublist sub⟩

end Node

namespace Node

/-! ## Nodes in order -/

/-- Whether a node reads nothing that another one produces. -/
def Precedes (n m : Node) : Prop := ∀ x ∈ n.reads, x ∉ m.presentOutputs

theorem sorted_iff_pairwise {ns : List Node} :
    Sorted ns ↔ (∀ n ∈ ns, n.Precedes n) ∧ ns.Pairwise Precedes := by
  induction ns with
  | nil => simp [Sorted]
  | cons n rest ih =>
      rw [Sorted, ih, List.pairwise_cons]
      simp only [List.forall_mem_cons, Precedes]
      constructor
      · rintro ⟨first, own, later⟩
        exact ⟨⟨fun x hx => (first x hx).1, own⟩, fun m hm x hx => (first x hx).2 m hm, later⟩
      · rintro ⟨⟨first, own⟩, before, later⟩
        exact ⟨fun x hx => ⟨first x hx, fun m hm => before m hm x hx⟩, own, later⟩

variable {n m : Node} {old new : String}

theorem Precedes.redirect (h : n.Precedes m) (hold : old ≠ "") (hnew : new ≠ "")
    (fresh : new ∉ n.innerNames) (apart : old ∉ n.reads ∨ new ∉ m.presentOutputs) :
    (n.redirect old new).Precedes (m.redirect old new) := by
  intro x hx hout
  rw [presentOutputs_redirect] at hout
  obtain ⟨y, hy, rfl⟩ := (mem_reads_redirect hold hnew fresh).1 hx
  by_cases heq : y = old
  · subst heq
    rw [substituteName_self] at hout
    exact apart.elim (fun h => h hy) fun h => h hout
  · rw [substituteName_of_ne heq] at hout
    exact h y hy hout

theorem Precedes.rename (h : n.Precedes m) (hold : old ≠ "") (hnew : new ≠ "")
    (fresh : new ∉ n.innerNames) (undefined : new ∉ m.presentOutputs)
    (apart : new ∉ n.reads ∨ old ∉ m.presentOutputs) :
    (n.rename old new).Precedes (m.rename old new) := by
  intro x hx hout
  rw [reads_rename] at hx
  rw [presentOutputs_rename hold hnew] at hout
  obtain ⟨y, hy, rfl⟩ := (mem_reads_redirect hold hnew fresh).1 hx
  obtain ⟨z, hz, heq⟩ := List.mem_map.1 hout
  by_cases hzo : z = old
  · subst hzo
    rw [substituteName_self] at heq
    by_cases hyo : y = z
    · exact h y hy (hyo ▸ hz)
    · rw [substituteName_of_ne hyo] at heq
      exact apart.elim (fun h => h (heq ▸ hy)) fun h => h hz
  · rw [substituteName_of_ne hzo] at heq
    by_cases hyo : y = old
    · subst hyo
      rw [substituteName_self] at heq
      exact undefined (heq ▸ hz)
    · rw [substituteName_of_ne hyo] at heq
      exact h y hy (heq ▸ hz)

/-- Whether nodes are in order around the place of a removed one: those before it read none of its
values, and those behind it produce none of the values that are read in their place. -/
structure Arranged (pairs : List (String × String)) (before after : List Node) : Prop where
  sorted : Sorted (before ++ after)
  unread : ∀ p ∈ pairs, ∀ n ∈ before, p.1 ∉ n.reads
  earlier : ∀ p ∈ pairs, ∀ n ∈ after, p.2 ∉ n.presentOutputs

namespace Arranged

variable {pair : String × String} {rest : List (String × String)} {before after : List Node}

/-- No node that reads the first value of a pair comes before one that produces the second value. -/
theorem map {f : Node → Node} (h : Arranged (pair :: rest) before after)
    (each : ∀ n ∈ before ++ after, ∀ m ∈ before ++ after, n.Precedes m →
      (pair.1 ∉ n.reads ∨ pair.2 ∉ m.presentOutputs) → (f n).Precedes (f m)) :
    Sorted (before.map f ++ after.map f) := by
  have left : ∀ n ∈ before, pair.1 ∉ n.reads := h.unread pair List.mem_cons_self
  have right : ∀ n ∈ after, pair.2 ∉ n.presentOutputs := h.earlier pair List.mem_cons_self
  obtain ⟨own, later⟩ := sorted_iff_pairwise.1 h.sorted
  obtain ⟨first, second, across⟩ := List.pairwise_append.1 later
  rw [sorted_iff_pairwise, ← List.map_append, List.pairwise_map, List.pairwise_append]
  refine ⟨fun m hm => ?_, ?_, ?_, fun n hn m hm => ?_⟩
  · obtain ⟨n, hn, rfl⟩ := List.mem_map.1 hm
    exact each n hn n hn (own n hn) ((List.mem_append.1 hn).imp (left n) (right n))
  · exact first.imp_of_mem fun hn hm hnm => each _ (List.mem_append_left _ hn) _
      (List.mem_append_left _ hm) hnm (Or.inl (left _ hn))
  · exact second.imp_of_mem fun hn hm hnm => each _ (List.mem_append_right _ hn) _
      (List.mem_append_right _ hm) hnm (Or.inr (right _ hm))
  · exact each n (List.mem_append_left _ hn) m (List.mem_append_right _ hm) (across n hn m hm)
      (Or.inl (left n hn))

theorem redirect (h : Arranged (pair :: rest) before after) (hs : pair.1 ≠ "") (ht : pair.2 ≠ "")
    (fresh : ∀ n ∈ before ++ after, pair.2 ∉ n.innerNames) :
    Arranged rest (before.map (Node.redirect pair.1 pair.2))
      (after.map (Node.redirect pair.1 pair.2)) := by
  refine ⟨h.map fun n hn m _ hnm => hnm.redirect hs ht (fresh n hn), fun q hq m hm hr => ?_,
    fun q hq m hm => ?_⟩
  · obtain ⟨n, hn, rfl⟩ := List.mem_map.1 hm
    obtain ⟨y, hy, heq⟩ := (mem_reads_redirect hs ht (fresh n (List.mem_append_left _ hn))).1 hr
    by_cases hys : y = pair.1
    · exact h.unread pair List.mem_cons_self n hn (hys ▸ hy)
    · rw [substituteName_of_ne hys] at heq
      exact h.unread q (List.mem_cons_of_mem _ hq) n hn (heq ▸ hy)
  · obtain ⟨n, hn, rfl⟩ := List.mem_map.1 hm
    exact h.earlier q (List.mem_cons_of_mem _ hq) n hn

theorem rename (h : Arranged (pair :: rest) before after) (hs : pair.1 ≠ "") (ht : pair.2 ≠ "")
    (fresh : ∀ n ∈ before ++ after, pair.1 ∉ n.innerNames)
    (undefined : ∀ n ∈ before ++ after, pair.1 ∉ n.presentOutputs)
    (source : ∀ q ∈ rest, q.1 ≠ pair.1) (target : ∀ q ∈ rest, q.2 ≠ pair.1) :
    Arranged rest (before.map (Node.rename pair.2 pair.1))
      (after.map (Node.rename pair.2 pair.1)) := by
  refine ⟨h.map fun n hn m hm hnm => hnm.rename ht hs (fresh n hn) (undefined m hm),
    fun q hq m hm hr => ?_, fun q hq m hm ho => ?_⟩
  · obtain ⟨n, hn, rfl⟩ := List.mem_map.1 hm
    rw [reads_rename] at hr
    obtain ⟨y, hy, heq⟩ := (mem_reads_redirect ht hs (fresh n (List.mem_append_left _ hn))).1 hr
    by_cases hyt : y = pair.2
    · rw [hyt, substituteName_self] at heq
      exact source q hq heq.symm
    · rw [substituteName_of_ne hyt] at heq
      exact h.unread q (List.mem_cons_of_mem _ hq) n hn (heq ▸ hy)
  · obtain ⟨n, hn, rfl⟩ := List.mem_map.1 hm
    rw [presentOutputs_rename ht hs] at ho
    obtain ⟨y, hy, heq⟩ := List.mem_map.1 ho
    by_cases hyt : y = pair.2
    · rw [hyt, substituteName_self] at heq
      exact target q hq heq.symm
    · rw [substituteName_of_ne hyt] at heq
      exact h.earlier q (List.mem_cons_of_mem _ hq) n hn (heq ▸ hy)

end Arranged
end Node

namespace Graph

/-! ## Pairs that are left -/

/-- Pairs that may be forwarded when a node is removed, as far as names are concerned. -/
structure Forwardable (scope : List String) (g : Graph) (n : Node) (pairs : List (String × String)) :
    Prop where
  sources : ∀ p ∈ pairs, p.1 ∈ n.presentOutputs
  covered : ∀ o ∈ n.presentOutputs, o ∈ pairs.map Prod.fst ∨ o ∉ g.uses
  distinctSources : (pairs.map Prod.fst).Nodup
  distinctTargets : (pairs.map Prod.snd).Nodup
  visible : ∀ p ∈ pairs, p.2 ∈ g.definedNames ∨ p.2 ∈ scope
  named : ∀ p ∈ pairs, p.2 ≠ ""
  foreign : ∀ p ∈ pairs, p.2 ∉ n.presentOutputs
  apart : ∀ p ∈ pairs, p.2 ∉ g.innerNames

/-- Pairs that may be forwarded to values that come no later. -/
structure Forwards (g : Graph) (rank : String → Nat) (n : Node) (pairs : List (String × String)) :
    Prop where
  sources : ∀ p ∈ pairs, p.1 ∈ n.presentOutputs
  covered : ∀ o ∈ n.presentOutputs, o ∈ pairs.map Prod.fst ∨ o ∉ g.uses
  distinctSources : (pairs.map Prod.fst).Nodup
  distinctTargets : (pairs.map Prod.snd).Nodup
  visible : ∀ p ∈ pairs, p.2 ∈ g.definedNames ∨ p.2 ∈ g.captures
  named : ∀ p ∈ pairs, p.2 ≠ ""
  foreign : ∀ p ∈ pairs, p.2 ∉ n.presentOutputs
  lower : ∀ p ∈ pairs, rank p.2 ≤ rank p.1

theorem Forwards.forwardable {g : Graph} {rank : String → Nat} {n : Node}
    {pairs : List (String × String)} (f : g.Forwards rank n pairs) (separate : g.Separate) :
    Forwardable g.captures g n pairs :=
  ⟨f.sources, f.covered, f.distinctSources, f.distinctTargets, f.visible, f.named, f.foreign,
    fun p hp => separate.visible_not_mem_innerNames (f.visible p hp)⟩

/-- A graph from which values of another graph were removed, while their readers still have to be
redirected as pairs say.  Names of a scope are visible from outside. -/
structure Pending (scope : List String) (g h : Graph) (pairs : List (String × String)) : Prop where
  inputs : h.inputs = g.inputs
  outputs : h.outputs = g.outputs
  defaults : ∀ x ∈ g.inputNames, (x ∈ h.initializerNames ↔ x ∈ g.initializerNames)
  made : ∀ x, h.made.count x + (pairs.map Prod.fst).count x ≤ g.made.count x
  inner : ∀ x ∈ h.innerNames, x ∈ g.innerNames
  captures : ∀ x ∈ h.captures, x ∈ scope ∨ x ∈ pairs.map Prod.fst
  named : ∀ p ∈ pairs, p.1 ≠ "" ∧ p.2 ≠ ""
  apart : ∀ p ∈ pairs, p.1 ∉ g.innerNames ∧ p.2 ∉ g.innerNames
  visible : ∀ p ∈ pairs, p.2 ∈ h.definedNames ∨ p.2 ∈ scope
  foreign : ∀ p ∈ pairs, p.2 ∉ pairs.map Prod.fst
  renamable : ∀ p ∈ pairs, p.1 ∈ g.outputNames →
    p.2 ∈ h.produced ∧ p.2 ∉ g.outputNames ∧ p.2 ∉ g.inputNames
  distinctTargets : (∃ p ∈ pairs, p.1 ∈ g.outputNames) → (pairs.map Prod.snd).Nodup

/-- How a pair is forwarded: its readers are redirected, or the other value gets its name. -/
inductive Forwarded (pair : String × String) (h : Graph) : Graph → Prop
  | redirect (fresh : ∀ n ∈ h.nodes, pair.2 ∉ n.innerNames) :
    Forwarded pair h (h.replaceUses pair.1 pair.2)
  | rename {h' : Graph} (fresh : ∀ n ∈ h.nodes, pair.1 ∉ n.innerNames)
    (undefined : ∀ n ∈ h.nodes, pair.1 ∉ n.presentOutputs)
    (eq : h' = { h with
      nodes := h.nodes.map (Node.rename pair.2 pair.1)
      valueInfo := h.valueInfo.map (renameInfo pair.2 pair.1) }) :
    Forwarded pair h h'

namespace Pending

variable {scope : List String} {g h : Graph} {pair : String × String}
  {rest pairs : List (String × String)}

/-- When no pair is left, the graph is a smaller one. -/
theorem reduces (p : Pending g.captures g h []) : Reduces g h where
  inputs := p.inputs
  outputs := by
    unfold outputNames
    rw [p.outputs]
  made x := p.made x
  defaults := p.defaults
  captures x hx := (p.captures x hx).resolve_right (by simp)

/-- The source of a pair is made by the first graph only. -/
theorem source (p : Pending scope g h (pair :: rest)) (unique : g.Unique) :
    h.made.count pair.1 = 0 ∧ pair.1 ∉ rest.map Prod.fst := by
  have le := unique.count_made_le pair.1
  have le' := p.made pair.1
  rw [List.map_cons, List.count_cons_self] at le'
  refine ⟨by omega, fun hmem => ?_⟩
  have := List.count_pos_iff.2 hmem
  omega

/-- Forwarding to a value that keeps its name. -/
theorem redirect (p : Pending scope g h (pair :: rest)) (no : pair.1 ∉ g.outputNames) :
    Pending scope g (h.replaceUses pair.1 pair.2) rest := by
  obtain ⟨hs, ht⟩ := p.named pair List.mem_cons_self
  have fresh : ∀ n ∈ h.nodes, pair.2 ∉ n.innerNames := fun n hn hi =>
    (p.apart pair List.mem_cons_self).2 (p.inner _ (mem_innerNames.2 ⟨n, hn, hi⟩))
  have hvisible := p.visible pair List.mem_cons_self
  have tail : ∀ q ∈ rest, q ∈ pair :: rest := fun q hq => List.mem_cons_of_mem _ hq
  have hdef := definedNames_replaceUses h pair.1 pair.2
  constructor
  case inputs => rw [replaceUses_eq, ← p.inputs]
  case outputs => rw [replaceUses_eq, ← p.outputs]
  case defaults =>
    rw [replaceUses_eq]
    exact p.defaults
  case made =>
    intro x
    have := p.made x
    rw [List.map_cons, List.count_cons] at this
    rw [made_replaceUses]
    omega
  case inner =>
    intro x hx
    rw [innerNames_replaceUses] at hx
    exact p.inner x hx
  case captures =>
    intro x hx
    obtain ⟨hx, hx'⟩ := mem_captures.1 hx
    rw [hdef] at hx'
    have old : ∀ y ∈ h.captures, y ≠ pair.1 → y ∈ scope ∨ y ∈ rest.map Prod.fst := by
      intro y hy hne
      rcases p.captures y hy with hy | hy
      · exact Or.inl hy
      · exact Or.inr ((List.mem_cons.1 hy).resolve_left hne)
    rcases hx with ⟨m, hm, hx⟩ | ho
    · rw [replaceUses_eq] at hm
      obtain ⟨n, hn, rfl⟩ := List.mem_map.1 hm
      obtain ⟨y, hy, rfl⟩ := (Node.mem_reads_redirect hs ht (fresh n hn)).1 hx
      by_cases heq : y = pair.1
      · subst heq
        rw [substituteName_self] at hx' ⊢
        exact Or.inl (hvisible.resolve_left hx')
      · rw [substituteName_of_ne heq] at hx' ⊢
        exact old y (mem_captures.2 ⟨Or.inl ⟨n, hn, hy⟩, hx'⟩) heq
    · rw [replaceUses_eq] at ho
      refine old x (mem_captures.2 ⟨Or.inr ho, hx'⟩) ?_
      rintro rfl
      apply no
      unfold outputNames
      rwa [← p.outputs]
  case named => exact fun q hq => p.named q (tail q hq)
  case apart => exact fun q hq => p.apart q (tail q hq)
  case visible =>
    intro q hq
    rw [hdef]
    exact p.visible q (tail q hq)
  case foreign => exact fun q hq hmem => p.foreign q (tail q hq) (List.mem_cons_of_mem _ hmem)
  case renamable =>
    intro q hq ho
    rw [produced_replaceUses]
    exact p.renamable q (tail q hq) ho
  case distinctTargets =>
    rintro ⟨q, hq, ho⟩
    exact (List.nodup_cons.1 (p.distinctTargets ⟨q, tail q hq, ho⟩)).2

/-- Renaming the second value of a pair changes nodes and declarations only. -/
theorem renameValue_eq (p : Pending scope g h (pair :: rest)) (unique : g.Unique)
    (out : pair.1 ∈ g.outputNames) :
    h.renameValue pair.2 pair.1 =
      { h with
        nodes := h.nodes.map (Node.rename pair.2 pair.1)
        valueInfo := h.valueInfo.map (renameInfo pair.2 pair.1) } := by
  obtain ⟨htarget, hno, hin⟩ := p.renamable pair List.mem_cons_self out
  have keepInfo : ∀ vs : List ValueInfo, pair.2 ∉ vs.map ValueInfo.name →
      vs.map (renameInfo pair.2 pair.1) = vs := by
    intro vs hvs
    refine (List.map_congr_left fun v hv => renameInfo_of_ne ?_).trans (List.map_id vs)
    exact fun heq => hvs (List.mem_map.2 ⟨v, hv, heq⟩)
  have keepInit : h.initializers.map (fun i =>
      { i with name := substituteName pair.2 pair.1 i.name }) = h.initializers := by
    refine (List.map_congr_left fun i hi => ?_).trans (List.map_id _)
    rw [substituteName_of_ne]
    · rfl
    · intro heq
      have pos : 0 < h.initializerNames.count pair.2 :=
        List.count_pos_iff.2 (List.mem_map.2 ⟨i, hi, heq⟩)
      have pos' := List.count_pos_iff.2 htarget
      have le := p.made pair.2
      have le' := unique.count_made_le pair.2
      rw [Graph.count_made] at le
      omega
  unfold inputNames at hin
  unfold outputNames at hno
  rw [← p.inputs] at hin
  rw [← p.outputs] at hno
  rw [Graph.renameValue_eq, keepInfo _ hin, keepInfo _ hno, keepInit]

/-- Forwarding an output, whose name the other value gets. -/
theorem rename (p : Pending scope g h (pair :: rest)) (unique : g.Unique)
    (out : pair.1 ∈ g.outputNames) : Pending scope g (h.renameValue pair.2 pair.1) rest := by
  obtain ⟨hs, ht⟩ := p.named pair List.mem_cons_self
  obtain ⟨hundef, hrest⟩ := p.source unique
  obtain ⟨htarget, hno, hin⟩ := p.renamable pair List.mem_cons_self out
  have heq := p.renameValue_eq unique out
  have fresh : pair.1 ∉ h.innerNames := fun hi =>
    (p.apart pair List.mem_cons_self).1 (p.inner _ hi)
  have tail : ∀ q ∈ rest, q ∈ pair :: rest := fun q hq => List.mem_cons_of_mem _ hq
  have other : ∀ q ∈ rest, q.2 ≠ pair.2 := by
    intro q hq heq
    exact (List.nodup_cons.1 (p.distinctTargets ⟨pair, List.mem_cons_self, out⟩)).1
      (List.mem_map.2 ⟨q, hq, heq⟩)
  have hdef := definedNames_renameValue ht hs h
  constructor
  case inputs => rw [heq, ← p.inputs]
  case outputs => rw [heq, ← p.outputs]
  case defaults =>
    rw [heq]
    exact p.defaults
  case made =>
    intro x
    have le := count_map_substituteName_le pair.2 pair.1 x h.produced
    have lex := p.made x
    have hinit : (h.renameValue pair.2 pair.1).initializerNames = h.initializerNames := by
      rw [heq]
      rfl
    rw [List.map_cons, List.count_cons] at lex
    rw [Graph.count_made, hinit, produced_renameValue ht hs, innerNames_renameValue]
    rw [Graph.count_made] at lex hundef
    by_cases hx : x = pair.1
    · subst hx
      have h₁ : (rest.map Prod.fst).count pair.1 = 0 := List.count_eq_zero.2 hrest
      have h₂ := p.made pair.2
      have h₃ := unique.count_made_le pair.2
      rw [Graph.count_made] at h₂
      rw [if_pos rfl] at le
      simp only [beq_self_eq_true, if_true] at lex
      omega
    · rw [if_neg hx] at le
      omega
  case inner =>
    intro x hx
    rw [innerNames_renameValue] at hx
    exact p.inner x hx
  case captures =>
    intro x hx
    obtain ⟨hx, hne⟩ := (captures_renameValue ht hs
      (mem_definedNames.2 (Or.inr (Or.inr htarget))) fresh).1 hx
    rcases p.captures x hx with hx | hx
    · exact Or.inl hx
    · exact Or.inr ((List.mem_cons.1 hx).resolve_left hne)
  case named => exact fun q hq => p.named q (tail q hq)
  case apart => exact fun q hq => p.apart q (tail q hq)
  case visible =>
    intro q hq
    rw [hdef]
    exact (p.visible q (tail q hq)).imp_left fun hd =>
      mem_map_substituteName_of_ne hd (other q hq)
  case foreign => exact fun q hq hmem => p.foreign q (tail q hq) (List.mem_cons_of_mem _ hmem)
  case renamable =>
    intro q hq ho
    rw [produced_renameValue ht hs]
    obtain ⟨hq', hno'⟩ := p.renamable q (tail q hq) ho
    exact ⟨mem_map_substituteName_of_ne hq' (other q hq), hno'⟩
  case distinctTargets =>
    rintro ⟨q, hq, ho⟩
    exact (List.nodup_cons.1 (p.distinctTargets ⟨q, tail q hq, ho⟩)).2

/-- One pair is forwarded. -/
theorem forwardValue (p : Pending scope g h (pair :: rest)) (unique : g.Unique) :
    Pending scope g (h.forwardValue pair) rest ∧ Forwarded pair h (h.forwardValue pair) := by
  have hiff : h.isOutput pair.1 = true ↔ pair.1 ∈ g.outputNames := by
    rw [isOutput_iff]
    unfold outputNames
    rw [p.outputs]
  obtain ⟨source, target⟩ := p.apart pair List.mem_cons_self
  have inner : ∀ n ∈ h.nodes, ∀ x ∈ n.innerNames, x ∈ g.innerNames :=
    fun n hn x hx => p.inner x (mem_innerNames.2 ⟨n, hn, hx⟩)
  unfold Graph.forwardValue
  by_cases ho : h.isOutput pair.1 = true
  · rw [if_pos ho]
    refine ⟨p.rename unique (hiff.1 ho), .rename (fun n hn hi => source (inner n hn _ hi))
      (fun n hn hout => ?_) (p.renameValue_eq unique (hiff.1 ho))⟩
    have zero := (p.source unique).1
    have pos := List.count_pos_iff.2 (mem_produced.2 ⟨n, hn, hout⟩)
    rw [Graph.count_made] at zero
    omega
  · rw [if_neg ho]
    exact ⟨p.redirect fun hmem => ho (hiff.2 hmem),
      .redirect fun n hn hi => target (inner n hn _ hi)⟩

/-- All pairs are forwarded, which keeps what each step keeps. -/
theorem foldl {Q : Graph → List (String × String) → Prop} (unique : g.Unique)
    (step : ∀ h h' pair rest, Pending scope g h (pair :: rest) → Forwarded pair h h' →
      Q h (pair :: rest) → Q h' rest)
    (p : Pending scope g h pairs) (q : Q h pairs) :
    Pending scope g (pairs.foldl Graph.forwardValue h) [] ∧
      Q (pairs.foldl Graph.forwardValue h) [] := by
  induction pairs generalizing h with
  | nil => exact ⟨p, q⟩
  | cons pair rest ih =>
      obtain ⟨p', forwarded⟩ := p.forwardValue unique
      exact ih p' (step h _ pair rest p forwarded q)

end Pending

/-! ## What a step keeps -/

namespace Forwarded

variable {scope : List String} {g h h' : Graph} {pair : String × String}
  {rest : List (String × String)}

theorem initializers (f : Forwarded pair h h') : h'.initializers = h.initializers := by
  cases f with
  | redirect => rw [replaceUses_eq]
  | rename _ _ heq => rw [heq]

/-- A property of nodes that is kept when they are redirected or renamed. -/
theorem nodes (f : Forwarded pair h h') {P : Node → Prop}
    (redirect : ∀ n, P n → pair.2 ∉ n.innerNames → P (n.redirect pair.1 pair.2))
    (rename : ∀ n, P n → pair.1 ∉ n.innerNames → P (n.rename pair.2 pair.1))
    (all : ∀ n ∈ h.nodes, P n) : ∀ n ∈ h'.nodes, P n := by
  intro m hm
  cases f with
  | redirect fresh =>
      rw [replaceUses_eq] at hm
      obtain ⟨n, hn, rfl⟩ := List.mem_map.1 hm
      exact redirect n (all n hn) (fresh n hn)
  | rename fresh _ heq =>
      rw [heq] at hm
      obtain ⟨n, hn, rfl⟩ := List.mem_map.1 hm
      exact rename n (all n hn) (fresh n hn)

/-- Nodes stay in order. -/
theorem arranged (f : Forwarded pair h h') (p : Pending scope g h (pair :: rest))
    (unique : g.Unique)
    (all : ∃ before after, h.nodes = before ++ after ∧ Node.Arranged (pair :: rest) before after) :
    ∃ before after, h'.nodes = before ++ after ∧ Node.Arranged rest before after := by
  obtain ⟨before, after, hnodes, arranged⟩ := all
  obtain ⟨hs, ht⟩ := p.named pair List.mem_cons_self
  cases f with
  | redirect fresh =>
      rw [hnodes] at fresh
      refine ⟨_, _, ?_, arranged.redirect hs ht fresh⟩
      rw [replaceUses_eq, hnodes, List.map_append]
  | rename fresh undefined heq =>
      rw [hnodes] at fresh undefined
      refine ⟨_, _, ?_, arranged.rename hs ht fresh undefined (fun q hq heq => ?_)
        fun q hq heq => ?_⟩
      · rw [heq, hnodes, List.map_append]
      · exact (p.source unique).2 (List.mem_map.2 ⟨q, hq, heq⟩)
      · exact p.foreign q (List.mem_cons_of_mem _ hq) (heq ▸ List.mem_cons_self)

end Forwarded

/-- Whether the nodes of a graph are regular and in order, while pairs are left that lead to values
that come no later. -/
structure Tidy (h : Graph) (pairs : List (String × String)) : Prop where
  nodes : ∀ n ∈ h.nodes, n.DeepRegular
  storable : h.Storable
  layout : ∃ rank, Node.Layout rank h.nodes ∧ ∀ p ∈ pairs, rank p.2 ≤ rank p.1

/-- Regular nodes stay regular and in order. -/
theorem Tidy.forwarded {scope : List String} {g h h' : Graph} {pair : String × String}
    {rest : List (String × String)} (t : Tidy h (pair :: rest)) (unique : g.Unique)
    (p : Pending scope g h (pair :: rest)) (f : Forwarded pair h h') : Tidy h' rest := by
  obtain ⟨hs, ht⟩ := p.named pair List.mem_cons_self
  obtain ⟨rank, layout, lower⟩ := t.layout
  have tail : ∀ q ∈ rest, q ∈ pair :: rest := fun q hq => List.mem_cons_of_mem _ hq
  refine ⟨f.nodes (fun n hn fresh => hn.redirect hs ht fresh)
    (fun n hn fresh => hn.rename ht hs fresh) t.nodes, ?_, ?_⟩
  · cases f with
    | redirect => exact t.storable.replaceUses _ _
    | rename _ _ heq =>
        rw [heq]
        refine ⟨t.storable.unknown, t.storable.initializers, t.storable.inputs,
          t.storable.outputs, fun v hv => ?_⟩
        obtain ⟨w, hw, rfl⟩ := List.mem_map.1 hv
        exact t.storable.valueInfo w hw
  · cases f with
    | redirect fresh =>
        refine ⟨rank, ?_, fun q hq => lower q (tail q hq)⟩
        rw [replaceUses_eq]
        exact layout.redirect hs ht (lower pair List.mem_cons_self) fresh
    | rename fresh undefined heq =>
        refine ⟨fun x => if x = pair.1 then rank pair.2 else rank x, ?_, fun q hq => ?_⟩
        · rw [heq]
          exact layout.rename ht hs (lower pair List.mem_cons_self) undefined fresh
        · have hq₁ : q.1 ≠ pair.1 := fun heq =>
            (p.source unique).2 (List.mem_map.2 ⟨q, hq, heq⟩)
          have hq₂ : q.2 ≠ pair.1 := fun heq =>
            p.foreign q (tail q hq) (heq ▸ List.mem_cons_self)
          simpa only [if_neg hq₁, if_neg hq₂] using lower q (tail q hq)

/-- When no pair is left, a sound graph is still sound and in order. -/
theorem Tidy.sound {g h : Graph} (t : Tidy h []) (p : Pending g.captures g h [])
    (sound : g.Sound) : h.Sound ∧ g.Reduces h ∧ ∃ rank, Node.Layout rank h.nodes := by
  obtain ⟨rank, layout, -⟩ := t.layout
  exact ⟨sound_iff.2 ⟨sound.separate.reduce p.reduces, t.nodes, layout.acyclic, t.storable⟩,
    p.reduces, rank, layout⟩

/-! ## Removing the node -/

theorem canForward_spec {g : Graph} {index : Nat} {renamed : List String}
    {pairs : List (String × String)} (h : g.canForward index renamed pairs = true) :
    ∀ p ∈ pairs, p.1 ∈ g.outputNames →
      g.isProducedElsewhere index p.2 = true ∧ p.2 ∉ g.outputNames := by
  induction pairs generalizing renamed with
  | nil => simp
  | cons pair rest ih =>
      obtain ⟨source, target⟩ := pair
      intro p hp ho
      unfold canForward at h
      by_cases hout : g.isOutput source = true
      · rw [if_pos hout] at h
        simp only [Bool.and_eq_true, Bool.not_eq_true', ← Bool.not_eq_true, isOutput_iff] at h
        rcases List.mem_cons.1 hp with rfl | hp
        · exact ⟨h.1.1.1, h.1.1.2⟩
        · exact ih h.2 p hp ho
      · rw [if_neg hout] at h
        rcases List.mem_cons.1 hp with rfl | hp
        · exact absurd (isOutput_iff.2 ho) hout
        · exact ih h p hp ho

theorem produced_of_isProducedElsewhere {g : Graph} {index : Nat} {x : String}
    (h : g.isProducedElsewhere index x = true) :
    x ∈ ({ g with nodes := g.nodes.eraseIdx index } : Graph).produced := by
  unfold isProducedElsewhere at h
  split at h
  · rename_i i hi
    obtain ⟨n, hn, hx⟩ := lastProducer?_some hi
    refine mem_produced.2 ⟨n, List.mem_eraseIdx_iff_getElem?.2 ⟨i, ?_, hn⟩, hx⟩
    simpa using h
  · cases h

/-- Right after the node was removed. -/
theorem Forwardable.pending {scope : List String} {g : Graph} (unique : g.Unique)
    (captures : ∀ x ∈ g.captures, x ∈ scope) {n : Node} {index : Nat}
    {pairs : List (String × String)} (hn : g.nodes[index]? = some n)
    (f : Forwardable scope g n pairs) (can : g.canForward index [] pairs = true) :
    Pending scope g { g with nodes := g.nodes.eraseIdx index } pairs := by
  obtain ⟨before, after, hnodes, herase, -, -⟩ := exists_split hn
  have sub : ∀ m ∈ g.nodes.eraseIdx index, m ∈ g.nodes := fun m hm => List.mem_of_mem_eraseIdx hm
  have hcount : ∀ (names : Node → List String) (x : String),
      ((g.nodes.eraseIdx index).flatMap names).count x + (names n).count x =
        (g.nodes.flatMap names).count x := by
    intro names x
    rw [herase, hnodes]
    simp only [List.flatMap_append, List.flatMap_cons, List.count_append]
    omega
  have hproduced : ∀ x, x ∈ g.produced → x ∉ n.presentOutputs →
      x ∈ ({ g with nodes := g.nodes.eraseIdx index } : Graph).produced := by
    intro x hx hno
    have pos := List.count_pos_iff.2 hx
    have zero := List.count_eq_zero.2 hno
    have eq := hcount Node.presentOutputs x
    unfold produced at pos
    exact List.count_pos_iff.1 (by unfold produced; simp only; omega)
  have hdefined : ∀ x, x ∈ g.definedNames → x ∉ n.presentOutputs →
      x ∈ ({ g with nodes := g.nodes.eraseIdx index } : Graph).definedNames := by
    intro x hx hno
    rcases mem_definedNames.1 hx with hx | hx | hx
    · exact mem_definedNames.2 (Or.inl hx)
    · exact mem_definedNames.2 (Or.inr (Or.inl hx))
    · exact mem_definedNames.2 (Or.inr (Or.inr (hproduced x hx hno)))
  constructor
  case inputs => rfl
  case outputs => rfl
  case defaults => exact fun _ _ => Iff.rfl
  case made =>
    intro x
    have eq₁ := hcount Node.presentOutputs x
    have eq₂ := hcount Node.innerNames x
    have le : (pairs.map Prod.fst).count x ≤ n.presentOutputs.count x := by
      refine (List.Nodup.subperm f.distinctSources fun y hy => ?_).count_le x
      obtain ⟨p, hp, rfl⟩ := List.mem_map.1 hy
      exact f.sources p hp
    rw [Graph.count_made, Graph.count_made]
    unfold produced innerNames initializerNames
    simp only
    omega
  case inner =>
    intro x hx
    obtain ⟨m, hm, hx⟩ := mem_innerNames.1 hx
    exact mem_innerNames.2 ⟨m, sub m hm, hx⟩
  case captures =>
    intro x hx
    obtain ⟨hx, hx'⟩ := mem_captures.1 hx
    have huse : x ∈ g.uses := by
      unfold uses
      rcases hx with ⟨m, hm, hx⟩ | ho
      · exact List.mem_append_left _ (List.mem_flatMap.2 ⟨m, sub m hm, hx⟩)
      · exact List.mem_append_right _ ho
    by_cases hno : x ∈ n.presentOutputs
    · exact Or.inr ((f.covered x hno).resolve_right fun h => h huse)
    · refine Or.inl (captures x (mem_captures.2 ⟨?_, fun hd => hx' (hdefined x hd hno)⟩))
      exact hx.imp_left fun ⟨m, hm, hx⟩ => ⟨m, sub m hm, hx⟩
  case named =>
    intro p hp
    exact ⟨(Node.mem_presentOutputs.1 (f.sources p hp)).2, f.named p hp⟩
  case visible =>
    intro p hp
    exact (f.visible p hp).imp_left fun hd => hdefined _ hd (f.foreign p hp)
  case foreign =>
    intro p hp hmem
    obtain ⟨q, hq, heq⟩ := List.mem_map.1 hmem
    exact f.foreign p hp (heq ▸ f.sources q hq)
  case apart =>
    intro p hp
    exact ⟨unique.not_mem_innerNames (mem_definedNames.2 (Or.inr (Or.inr
      (mem_produced.2 ⟨n, List.mem_of_getElem? hn, f.sources p hp⟩)))), f.apart p hp⟩
  case renamable =>
    intro p hp ho
    obtain ⟨elsewhere, hno⟩ := canForward_spec can p hp ho
    have hprod := produced_of_isProducedElsewhere elsewhere
    obtain ⟨m, hm, hx⟩ := mem_produced.1 hprod
    exact ⟨hprod, hno, unique.produced_not_mem_inputNames (mem_produced.2 ⟨m, sub m hm, hx⟩)⟩
  case distinctTargets => exact fun _ => f.distinctTargets

/-- Removing a node whose used outputs are forwarded keeps a graph sound and in order. -/
theorem forwardNode_sound {g : Graph} (sound : g.Sound) {rank : String → Nat} {n : Node}
    {index : Nat} {pairs : List (String × String)} (layout : Node.Layout rank g.nodes)
    (hn : g.nodes[index]? = some n) (f : g.Forwards rank n pairs)
    (can : g.canForward index [] pairs = true) :
    (g.forwardNode index pairs).Sound ∧ g.Reduces (g.forwardNode index pairs) ∧
      ∃ rank, Node.Layout rank (g.forwardNode index pairs).nodes := by
  obtain ⟨nodes, -, storable⟩ := everywhere_regular_iff.1 sound.regular
  have unique := sound.separate.unique
  have start := (f.forwardable sound.separate).pending unique (fun _ h => h) hn can
  have tidy : Tidy { g with nodes := g.nodes.eraseIdx index } pairs :=
    ⟨fun m hm => nodes m (List.mem_of_mem_eraseIdx hm),
      ⟨storable.unknown, storable.initializers, storable.inputs, storable.outputs,
        storable.valueInfo⟩,
      rank, layout.sublist (List.eraseIdx_sublist g.nodes index), f.lower⟩
  obtain ⟨last, tidy'⟩ := Pending.foldl unique
    (fun _ _ _ _ p forwarded t => t.forwarded unique p forwarded) start tidy
  exact tidy'.sound last sound

end Graph
end TensorGraph
