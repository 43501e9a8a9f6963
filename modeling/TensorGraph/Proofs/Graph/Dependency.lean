import Mathlib
import TensorGraph.Proofs.Graph.Order

/-!
# Orders that respect dependencies

Input:

* a graph in which each value has at most one producer (`Graph.OneProducer`).

Algorithm:

* `Graph.orderFrom` takes the first node that waits for ordered nodes only, as long as there is one.

A node depends on another one if it reads, itself or in a nested graph, what the other one produces
(`Graph.DependsOn`).  An order has every index once, after those that it depends on (`Graph.IsOrder`).

Main results:

* `Graph.topologicalOrder_isOk_iff_irreflexive`: an order is found exactly when no node depends on
  itself, directly or through others;
* `Graph.topologicalOrder_least`: the order that is found is the lexicographically least one;
* `Graph.topologicalOrder_of_isOrder_range`: nodes that are in order stay in this order.
-/

namespace TensorGraph
namespace Graph

variable {g : Graph} {deps : List (List Nat)} {before order : List Nat}

/-- Whether the node at an index reads a value that the node at another index produces. -/
def DependsOn (g : Graph) (i j : Nat) : Prop :=
  ∃ n m x, g.nodes[i]? = some n ∧ g.nodes[j]? = some m ∧ x ∈ Node.reads n ∧
    x ∈ Node.presentOutputs m

/-- Whether an order has every node once, and every producer before its readers. -/
structure IsOrder (g : Graph) (order : List Nat) : Prop where
  perm : order.Perm (List.range g.nodes.length)
  before : ∀ i j, g.DependsOn i j → order.idxOf j < order.idxOf i

theorem DependsOn.lt_length {i j : Nat} (h : g.DependsOn i j) :
    i < g.nodes.length ∧ j < g.nodes.length := by
  obtain ⟨n, m, x, hi, hj, -, -⟩ := h
  exact ⟨(List.getElem?_eq_some_iff.1 hi).1, (List.getElem?_eq_some_iff.1 hj).1⟩

/-- What a graph finds a node to depend on is what it depends on. -/
theorem OneProducer.mem_dependencies_iff (one : g.OneProducer) {i j : Nat} :
    j ∈ g.dependencies.getD i [] ↔ g.DependsOn i j := by
  rw [mem_dependencies]
  constructor
  · rintro ⟨n, hn, x, hx, hj⟩
    obtain ⟨m, hm, hout⟩ := lastProducer?_some hj
    exact ⟨n, m, x, hn, hm, hx, hout⟩
  · rintro ⟨n, m, x, hn, hm, hx, hout⟩
    exact ⟨n, hn, x, hx, one.lastProducer?_eq hm hout⟩

/-! ## Orders by position -/

/-- In an order, a number comes after those that it depends on. -/
theorem InOrder.idxOf_lt (h : InOrder deps before order) {i j : Nat} (hi : i ∈ order)
    (hj : j ∈ deps.getD i []) : j ∈ before ∨ order.idxOf j < order.idxOf i := by
  induction order generalizing before with
  | nil => cases hi
  | cons k rest ih =>
      obtain ⟨-, ready, later⟩ := h
      by_cases hik : i = k
      · exact Or.inl (ready j (hik ▸ hj))
      · have inner := ih later ((List.mem_cons.1 hi).resolve_left hik)
        rw [List.idxOf_cons_ne rest (Ne.symm hik)]
        by_cases hjk : j = k
        · rw [hjk, List.idxOf_cons_self]
          exact Or.inr (Nat.succ_pos _)
        · rw [List.idxOf_cons_ne rest (Ne.symm hjk)]
          rcases inner with hb | hlt
          · exact Or.inl ((List.mem_append.1 hb).resolve_right (by simpa using hjk))
          · exact Or.inr (Nat.succ_lt_succ hlt)

/-- Numbers that come after those that they depend on are in order. -/
theorem inOrder_of_idxOf_lt (nodup : (before ++ order).Nodup)
    (h : ∀ i ∈ order, ∀ j ∈ deps.getD i [],
      (before ++ order).idxOf j < (before ++ order).idxOf i) : InOrder deps before order := by
  induction order generalizing before with
  | nil => trivial
  | cons i rest ih =>
      have new : i ∉ before := by
        intro hi
        exact (List.nodup_append.1 nodup).2.2 i hi i List.mem_cons_self rfl
      have later : before ++ [i] ++ rest = before ++ i :: rest := by
        rw [List.append_assoc, List.singleton_append]
      refine ⟨new, fun j hj => ?_, ih (later ▸ nodup) fun k hk => ?_⟩
      · have hlt := h i List.mem_cons_self j hj
        by_contra hb
        rw [List.idxOf_append_of_notMem hb, List.idxOf_append_of_notMem new,
          List.idxOf_cons_self] at hlt
        omega
      · rw [later]
        exact h k (List.mem_cons_of_mem i hk)

theorem OneProducer.isOrder_iff (one : g.OneProducer) :
    g.IsOrder order ↔
      order.Perm (List.range g.nodes.length) ∧ InOrder g.dependencies [] order := by
  constructor
  · rintro ⟨perm, earlier⟩
    refine ⟨perm, inOrder_of_idxOf_lt (perm.nodup_iff.2 List.nodup_range) fun i _ j hj => ?_⟩
    exact earlier i j (one.mem_dependencies_iff.1 hj)
  · rintro ⟨perm, inOrder⟩
    refine ⟨perm, fun i j h => ?_⟩
    have hi : i ∈ order := perm.mem_iff.2 (List.mem_range.2 h.lt_length.1)
    exact (inOrder.idxOf_lt hi (one.mem_dependencies_iff.2 h)).resolve_left List.not_mem_nil

/-- The order that is found is one. -/
theorem OneProducer.isOrder_topologicalOrder (one : g.OneProducer)
    (h : g.topologicalOrder = .ok order) : g.IsOrder order :=
  one.isOrder_iff.2 (topologicalOrder_eq_ok h)

/-- Nodes in an order are sorted. -/
theorem IsOrder.sorted (h : g.IsOrder order) (one : g.OneProducer) :
    Node.Sorted (order.filterMap fun i => g.nodes[i]?) :=
  one.sorted_of_inOrder (one.isOrder_iff.1 h).2

/-- Nodes that are in order stay in this order. -/
theorem topologicalOrder_of_isOrder_range (one : g.OneProducer)
    (h : g.IsOrder (List.range g.nodes.length)) :
    g.topologicalOrder = .ok (List.range g.nodes.length) := by
  have sorted := h.sorted one
  rw [filterMap_range_getElem?] at sorted
  exact topologicalOrder_of_sorted sorted

/-! ## The least order -/

/-- What is taken next is the least of the numbers that are ready. -/
theorem le_of_nextReady? {done : List Nat} {i k : Nat} (h : nextReady? deps done = some i)
    (new : k ∉ done) (ready : ∀ j ∈ deps.getD k [], j ∈ done) : i ≤ k := by
  unfold nextReady? at h
  rw [List.find?_range_eq_some] at h
  by_contra hlt
  have waits := h.2.2 k (Nat.lt_of_not_le hlt)
  simp [new] at waits
  obtain ⟨j, hj, hjd⟩ := waits
  exact hjd (ready j (by simpa using hj))

/-- An order that is extended step by step comes before any other that goes on from there. -/
theorem orderFrom_least (count : Nat) {done rest : List Nat} (h : InOrder deps done rest)
    (all : ∀ i < deps.length, i ∈ done ∨ i ∈ rest) :
    ∃ more, orderFrom deps count done = done ++ more ∧
      (more = rest ∨ List.Lex (· < ·) more rest) := by
  have empty : ∀ rest : List Nat, [] = rest ∨ List.Lex (· < ·) [] rest := by
    intro rest
    cases rest with
    | nil => exact Or.inl rfl
    | cons k rest => exact Or.inr .nil
  induction count generalizing done rest with
  | zero => exact ⟨[], (List.append_nil done).symm, empty rest⟩
  | succ count ih =>
      unfold orderFrom
      cases hnext : nextReady? deps done with
      | none => exact ⟨[], (List.append_nil done).symm, empty rest⟩
      | some i =>
          obtain ⟨hi, hnew, -⟩ := nextReady?_some hnext
          cases rest with
          | nil => exact absurd ((all i hi).resolve_right List.not_mem_nil) hnew
          | cons k rest =>
              obtain ⟨knew, kready, later⟩ := h
              have le : i ≤ k := le_of_nextReady? hnext knew kready
              dsimp only
              rcases Nat.lt_or_eq_of_le le with hlt | rfl
              · obtain ⟨more, heq, -⟩ := orderFrom_spec deps count (done ++ [i])
                refine ⟨i :: more, by rw [heq, List.append_assoc, List.singleton_append], ?_⟩
                exact Or.inr (.rel hlt)
              · have all' : ∀ j < deps.length, j ∈ done ++ [i] ∨ j ∈ rest := by
                  intro j hj
                  rcases all j hj with h | h
                  · exact Or.inl (List.mem_append_left _ h)
                  · rcases List.mem_cons.1 h with rfl | h
                    · exact Or.inl (by simp)
                    · exact Or.inr h
                obtain ⟨more, heq, least⟩ := ih later all'
                refine ⟨i :: more, by rw [heq, List.append_assoc, List.singleton_append], ?_⟩
                exact least.imp (congrArg (i :: ·)) .cons

theorem eq_orderFrom (h : g.topologicalOrder = .ok order) :
    order = orderFrom g.dependencies g.dependencies.length [] := by
  unfold topologicalOrder at h
  dsimp only at h
  split at h
  · cases h
  · split at h
    · cases h
    · cases h
      rfl

/-- The order that is found is the lexicographically least one. -/
theorem topologicalOrder_least (one : g.OneProducer) (h : g.topologicalOrder = .ok order)
    {other : List Nat} (isOrder : g.IsOrder other) :
    order = other ∨ List.Lex (· < ·) order other := by
  obtain ⟨perm, inOrder⟩ := one.isOrder_iff.1 isOrder
  have all : ∀ i < g.dependencies.length, i ∈ [] ∨ i ∈ other := by
    intro i hi
    rw [length_dependencies] at hi
    exact Or.inr (perm.mem_iff.2 (List.mem_range.2 hi))
  obtain ⟨more, heq, least⟩ := orderFrom_least g.dependencies.length inOrder all
  rw [eq_orderFrom h, heq]
  exact least

/-! ## Cycles -/

/-- A node that depends on another one, directly or through others, comes later in any order. -/
theorem IsOrder.idxOf_lt_of_transGen (h : g.IsOrder order) {i j : Nat}
    (path : Relation.TransGen g.DependsOn i j) : order.idxOf j < order.idxOf i := by
  induction path with
  | single step => exact h.before _ _ step
  | tail _ step ih => exact (h.before _ _ step).trans ih

open scoped Classical in
/-- If no node depends on itself, values can be ranked by how many nodes their producer depends on. -/
theorem OneProducer.acyclic (one : g.OneProducer)
    (irreflexive : ∀ i, ¬Relation.TransGen g.DependsOn i i) : Node.Acyclic g.nodes := by
  let below : Nat → Finset Nat := fun i =>
    (Finset.range g.nodes.length).filter fun j => Relation.TransGen g.DependsOn i j
  have lower : ∀ {i j}, g.DependsOn i j → (below j).card < (below i).card := by
    intro i j step
    refine Finset.card_lt_card (Finset.ssubset_iff_of_subset ?_ |>.2 ⟨j, ?_, ?_⟩)
    · intro k hk
      obtain ⟨hk, path⟩ := Finset.mem_filter.1 hk
      exact Finset.mem_filter.2 ⟨hk, .head step path⟩
    · exact Finset.mem_filter.2 ⟨Finset.mem_range.2 step.lt_length.2, .single step⟩
    · exact fun hj => irreflexive j (Finset.mem_filter.1 hj).2
  refine ⟨fun x => (g.lastProducer? x).elim 0 fun i => (below i).card + 1, ?_⟩
  intro n hn x hx y hy
  obtain ⟨i, hi⟩ := List.getElem?_of_mem hn
  dsimp only
  rw [one.lastProducer?_eq hi hy]
  cases hj : g.lastProducer? x with
  | none => exact Nat.succ_pos _
  | some j =>
      obtain ⟨m, hm, hout⟩ := lastProducer?_some hj
      exact Nat.succ_lt_succ (lower ⟨n, m, x, hi, hm, hx, hout⟩)

/-- An order is found exactly when no node depends on itself, directly or through others. -/
theorem topologicalOrder_isOk_iff_irreflexive (one : g.OneProducer) :
    (∃ order, g.topologicalOrder = .ok order) ↔
      ∀ i, ¬Relation.TransGen g.DependsOn i i := by
  constructor
  · rintro ⟨order, h⟩ i path
    exact Nat.lt_irrefl _ ((one.isOrder_topologicalOrder h).idxOf_lt_of_transGen path)
  · exact fun irreflexive => topologicalOrder_of_acyclic (one.acyclic irreflexive)

end Graph
end TensorGraph
