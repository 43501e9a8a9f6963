import Mathlib
import TensorGraph.Graph.Worklist
import TensorGraph.Proofs.Graph.Dependency

/-!
# Counting finds the topological order

Input:

* for each node, the nodes that it depends on, once for each read.

Algorithm:

* `Worklist.run` orders the least ready node, and then serves all reads of what it produces.  A node
  whose last read is served becomes ready.

After each step the reads of a node that still wait are counted, and the ready nodes are those without
any (`Worklist.Counts`).  So the least ready node is the one that `Graph.nextReady?` finds.

Main results:

* `Graph.orderByCounting_eq`: counting and searching find the same order, or the same cycle;
* `Graph.orderByCounting_exact`: the order is found exactly when there is no cycle, it is the
  lexicographically least one, and sorting by it changes nothing the second time.
-/

namespace TensorGraph
namespace Worklist

variable {deps readers : List (List Nat)} {s : Worklist}

/-! ## Serving reads -/

/-- A node reads what another one produces as often as it waits for it. -/
theorem count_consumers (deps : List (List Nat)) (i c : Nat) :
    (consumers deps i).count c = (deps.getD c []).count i := by
  have one : ∀ (ds : List Nat) (c' : Nat),
      ((ds.filter (· == i)).map fun _ => c').count c = if c' = c then ds.count i else 0 := by
    intro ds c'
    rw [List.map_const', List.count_replicate, List.count_eq_length_filter]
    simp only [beq_iff_eq]
  have shifted : ∀ k, ((deps.zipIdx k).flatMap fun entry =>
      (entry.1.filter (· == i)).map fun _ => entry.2).count c =
        if k ≤ c then (deps.getD (c - k) []).count i else 0 := by
    induction deps with
    | nil => simp
    | cons ds rest ih =>
        intro k
        rw [List.zipIdx_cons, List.flatMap_cons, List.count_append, one, ih]
        rcases Nat.lt_trichotomy k c with hlt | rfl | hgt
        · obtain ⟨d, rfl⟩ : ∃ d, c = k + d + 1 := ⟨c - k - 1, by omega⟩
          rw [if_neg (by omega), if_pos (by omega), if_pos (by omega), Nat.zero_add,
            show k + d + 1 - k = (k + d + 1 - (k + 1)) + 1 by omega, List.getD_cons_succ]
        · rw [if_pos rfl, if_neg (by omega), if_pos (Nat.le_refl k), Nat.sub_self,
            List.getD_cons_zero, Nat.add_zero]
        · rw [if_neg (by omega), if_neg (by omega), if_neg (by omega)]
  exact (shifted 0).trans (if_pos (Nat.zero_le c))

theorem getD_pending_serve (s : Worklist) {c : Nat} (hc : c < s.pending.length) (d : Nat) :
    (s.serve c).pending.getD d 0 =
      if d = c then s.pending.getD c 0 - 1 else s.pending.getD d 0 := by
  unfold serve
  dsimp only
  rw [List.getD_eq_getElem?_getD, List.getElem?_set]
  by_cases h : d = c
  · rw [if_pos h.symm, if_pos hc, if_pos h]
    rfl
  · rw [if_neg (Ne.symm h), if_neg h, List.getD_eq_getElem?_getD]

/-- A node becomes ready with its last read. -/
theorem mem_ready_serve (s : Worklist) (d c : Nat) :
    c ∈ (s.serve d).ready ↔ c ∈ s.ready ∨ c = d ∧ s.pending.getD d 0 - 1 = 0 := by
  unfold serve
  dsimp only
  split
  · rename_i last
    rw [List.mem_cons, and_iff_left last, or_comm]
  · rename_i waits
    exact ⟨Or.inl, fun h => h.resolve_right fun last => waits last.2⟩

theorem nodup_ready_serve {d : Nat} (nodup : s.ready.Nodup) (new : d ∉ s.ready) :
    (s.serve d).ready.Nodup := by
  unfold serve
  dsimp only
  split
  · exact List.nodup_cons.2 ⟨new, nodup⟩
  · exact nodup

/-- Serving reads orders nothing. -/
theorem order_take (readers : List (List Nat)) (s : Worklist) (i : Nat) :
    (s.take readers i).order = s.order ++ [i] := by
  have served : ∀ (cs : List Nat) (s : Worklist), (cs.foldl serve s).order = s.order := by
    intro cs
    induction cs with
    | nil => exact fun _ => rfl
    | cons c cs ih => exact fun s => ih (s.serve c)
  exact served _ _

/-- Serving some reads lowers the counts by them, and makes the nodes ready of which it was the last
one. -/
theorem foldl_serve (cs : List Nat) (s : Worklist)
    (enough : ∀ c, cs.count c ≤ s.pending.getD c 0) (apart : ∀ c ∈ s.ready, c ∉ cs)
    (nodup : s.ready.Nodup) :
    (∀ c, (cs.foldl serve s).pending.getD c 0 = s.pending.getD c 0 - cs.count c) ∧
      (∀ c, c ∈ (cs.foldl serve s).ready ↔
        c ∈ s.ready ∨ c ∈ cs ∧ (cs.foldl serve s).pending.getD c 0 = 0) ∧
      (cs.foldl serve s).ready.Nodup := by
  induction cs generalizing s with
  | nil => simp [nodup]
  | cons d cs ih =>
      have hd : d < s.pending.length := by
        by_contra hge
        have := enough d
        rw [List.count_cons_self, List.getD_eq_default _ _ (by omega)] at this
        omega
      have pending := getD_pending_serve s hd
      have new : d ∉ s.ready := fun h => apart d h List.mem_cons_self
      have enough' : ∀ c, cs.count c ≤ (s.serve d).pending.getD c 0 := by
        intro c
        rw [pending]
        split
        · rename_i same
          have := enough d
          rw [List.count_cons_self] at this
          rw [same]
          omega
        · exact Nat.le_trans List.count_le_count_cons (enough c)
      have apart' : ∀ c ∈ (s.serve d).ready, c ∉ cs := by
        intro c hc
        rcases (mem_ready_serve s d c).1 hc with hc | ⟨rfl, last⟩
        · exact fun h => apart c hc (List.mem_cons_of_mem d h)
        · have := enough' c
          rw [pending, if_pos rfl, last] at this
          exact List.count_eq_zero.1 (Nat.le_zero.1 this)
      obtain ⟨left, ready, nodup'⟩ :=
        ih (s.serve d) enough' apart' (nodup_ready_serve nodup new)
      have left' : ∀ c, ((d :: cs).foldl serve s).pending.getD c 0 =
          s.pending.getD c 0 - (d :: cs).count c := by
        intro c
        rw [List.foldl_cons, left, pending]
        split
        · rename_i same
          rw [same, List.count_cons_self]
          omega
        · rename_i differ
          rw [List.count_cons_of_ne (Ne.symm differ)]
      refine ⟨left', fun c => ?_, nodup'⟩
      have last : s.pending.getD d 0 - 1 = 0 ∨ d ∈ cs ∧
          ((d :: cs).foldl serve s).pending.getD d 0 = 0 ↔
            ((d :: cs).foldl serve s).pending.getD d 0 = 0 := by
        rw [left', List.count_cons_self]
        constructor
        · rintro (h | ⟨-, h⟩) <;> omega
        · intro h
          by_cases hcs : d ∈ cs
          · exact Or.inr ⟨hcs, h⟩
          · rw [List.count_eq_zero.2 hcs] at h
            exact Or.inl h
      rw [List.foldl_cons, ready, mem_ready_serve, List.mem_cons]
      rw [List.foldl_cons] at last
      by_cases same : c = d
      · subst same
        simp only [true_and, true_or]
        exact or_assoc.trans (or_congr_right last)
      · simp only [same, false_and, or_false, false_or]

/-! ## Counts after each step -/

/-- What holds of every state: the reads of a node that wait for a node which is not ordered yet are
counted, none of them belongs to an ordered node, and the other nodes without any are ready. -/
structure Counts (deps : List (List Nat)) (s : Worklist) : Prop where
  pending : ∀ c, s.pending.getD c 0 = (deps.getD c []).countP (· ∉ s.order)
  ordered : ∀ c ∈ s.order, s.pending.getD c 0 = 0
  ready : ∀ c, c ∈ s.ready ↔ c < deps.length ∧ c ∉ s.order ∧ s.pending.getD c 0 = 0
  nodup : s.ready.Nodup

theorem getD_map_length (deps : List (List Nat)) (c : Nat) :
    (deps.map List.length).getD c 0 = (deps.getD c []).length := by
  rw [List.getD_eq_getElem?_getD, List.getD_eq_getElem?_getD, List.getElem?_map]
  cases deps[c]? <;> rfl

theorem Counts.start (deps : List (List Nat)) : Counts deps (start deps) where
  pending c := by
    rw [Worklist.start, getD_map_length, eq_comm, List.countP_eq_length]
    simp
  ordered := by simp [Worklist.start]
  ready c := by
    simp only [Worklist.start, getD_map_length]
    simp
  nodup := List.nodup_range.filter _

/-- A node waits for nothing exactly when all that it depends on is ordered. -/
theorem Counts.pending_eq_zero_iff (h : Counts deps s) {c : Nat} :
    s.pending.getD c 0 = 0 ↔ ∀ j ∈ deps.getD c [], j ∈ s.order := by
  rw [h.pending, List.countP_eq_zero]
  simp

/-- The reads that wait for one more node are those that no longer wait once it is ordered. -/
theorem countP_notMem_concat {order : List Nat} {i : Nat} (new : i ∉ order) (ds : List Nat) :
    ds.countP (· ∉ order ++ [i]) + ds.count i = ds.countP (· ∉ order) := by
  induction ds with
  | nil => rfl
  | cons d rest ih =>
      rw [List.countP_cons, List.countP_cons, List.count_cons, ← ih]
      by_cases same : d = i
      · subst same
        simp [new]
        omega
      · by_cases hd : d ∈ order
        · simp [same, hd]
        · simp [same, hd]
          omega

/-- Ordering a ready node keeps the counts. -/
theorem Counts.take (h : Counts deps s) {i : Nat} (hi : i ∈ s.ready)
    (table : readers.getD i [] = consumers deps i) : Counts deps (s.take readers i) := by
  obtain ⟨-, new, zero⟩ := (h.ready i).1 hi
  have waits : ∀ c, (deps.getD c []).countP (· ∉ s.order ++ [i]) + (consumers deps i).count c =
      s.pending.getD c 0 := by
    intro c
    rw [h.pending, count_consumers]
    exact countP_notMem_concat new _
  have reader : ∀ c ∈ consumers deps i, 0 < s.pending.getD c 0 := by
    intro c hc
    have := waits c
    have := List.count_pos_iff.2 hc
    omega
  have served := foldl_serve (consumers deps i)
    { s with ready := s.ready.erase i, order := s.order ++ [i] }
    (fun c => by
      have := waits c
      dsimp only
      omega)
    (fun c hc hread => by
      have := ((h.ready c).1 (List.mem_of_mem_erase hc)).2.2
      have := reader c hread
      omega)
    (h.nodup.erase i)
  have order := order_take readers s i
  rw [Worklist.take, table] at order ⊢
  dsimp only at served
  obtain ⟨left, ready, nodup⟩ := served
  refine ⟨fun c => ?_, fun c hc => ?_, fun c => ?_, nodup⟩
  · rw [left, order, ← waits c]
    exact Nat.add_sub_cancel _ _
  · rw [order, List.mem_append, List.mem_singleton] at hc
    rw [left]
    rcases hc with hc | rfl
    · rw [h.ordered c hc, Nat.zero_sub]
    · rw [zero, Nat.zero_sub]
  · rw [ready, order, List.mem_append, List.mem_singleton, h.nodup.mem_erase_iff, h.ready, not_or]
    constructor
    · rintro (⟨hne, hlt, hc, hzero⟩ | ⟨hread, hzero⟩)
      · exact ⟨hlt, ⟨hc, hne⟩, by rw [left, hzero, Nat.zero_sub]⟩
      · -- a reader waits for the node, so it is not ordered, and it is not the node itself
        have waiting := reader c hread
        refine ⟨?_, ⟨fun hc => ?_, ?_⟩, hzero⟩
        · by_contra hge
          rw [h.pending, List.getD_eq_default _ _ (by omega)] at waiting
          exact Nat.lt_irrefl _ waiting
        · rw [h.ordered c hc] at waiting
          exact Nat.lt_irrefl _ waiting
        · rintro rfl
          rw [zero] at waiting
          exact Nat.lt_irrefl _ waiting
    · rintro ⟨hlt, ⟨hc, hne⟩, hzero⟩
      by_cases hread : c ∈ consumers deps i
      · exact Or.inr ⟨hread, hzero⟩
      · rw [left, List.count_eq_zero.2 hread, Nat.sub_zero] at hzero
        exact Or.inl ⟨hne, hlt, hc, hzero⟩

/-- The least ready node is the one that is found by searching. -/
theorem Counts.min?_ready (h : Counts deps s) :
    s.ready.min? = Graph.nextReady? deps s.order := by
  have found : ∀ c, c ∈ s.ready ↔ c < deps.length ∧
      (!s.order.contains c && (deps.getD c []).all s.order.contains) = true := by
    intro c
    rw [h.ready, h.pending_eq_zero_iff]
    simp
  unfold Graph.nextReady?
  cases hmin : s.ready.min? with
  | none =>
      rw [List.min?_eq_none_iff] at hmin
      refine (List.find?_eq_none.2 fun c hc hready => ?_).symm
      have := (found c).2 ⟨List.mem_range.1 hc, hready⟩
      rw [hmin] at this
      cases this
  | some i =>
      obtain ⟨hi, least⟩ := List.min?_eq_some_iff.1 hmin
      obtain ⟨hlt, ready⟩ := (found i).1 hi
      refine (List.find?_range_eq_some.2 ⟨ready, List.mem_range.2 hlt, fun j hj => ?_⟩).symm
      rw [Bool.not_eq_true']
      by_contra hready
      have := least j ((found j).2 ⟨Nat.lt_trans hj hlt, by simpa using hready⟩)
      omega

/-- Counting orders the same nodes as searching, and keeps the counts. -/
theorem Counts.run (h : Counts deps s)
    (table : ∀ i < deps.length, readers.getD i [] = consumers deps i) (count : Nat) :
    (run readers count s).order = Graph.orderFrom deps count s.order ∧
      Counts deps (run readers count s) := by
  induction count generalizing s with
  | zero => exact ⟨rfl, h⟩
  | succ count ih =>
      unfold Worklist.run Graph.orderFrom
      rw [← h.min?_ready]
      cases hmin : s.ready.min? with
      | none => exact ⟨rfl, h⟩
      | some i =>
          have hi : i ∈ s.ready := (List.min?_eq_some_iff.1 hmin).1
          have hlt := ((h.ready i).1 hi).1
          dsimp only
          rw [← order_take readers s i]
          exact ih (h.take hi (table i hlt))

/-- Distinct numbers below a bound are fewer than the bound exactly when one of them is missing. -/
theorem length_lt_iff_exists_notMem {order : List Nat} {n : Nat} (nodup : order.Nodup)
    (bound : ∀ i ∈ order, i < n) : order.length < n ↔ ∃ i ∈ List.range n, i ∉ order := by
  constructor
  · intro short
    by_contra all
    have sub : List.range n ⊆ order := by
      intro i hi
      by_contra new
      exact all ⟨i, hi, new⟩
    have := List.nodup_range.length_le_of_subset sub
    rw [List.length_range] at this
    omega
  · rintro ⟨i, hi, new⟩
    have nodup' : (i :: order).Nodup := List.nodup_cons.2 ⟨new, nodup⟩
    have sub : i :: order ⊆ List.range n := by
      intro j hj
      rcases List.mem_cons.1 hj with rfl | hj
      · exact hi
      · exact List.mem_range.2 (bound j hj)
    have := nodup'.length_le_of_subset sub
    rwa [List.length_cons, List.length_range] at this

/-- In the end the nodes that are not ordered are those that still wait. -/
theorem finished {order : List Nat} (counts : Counts deps s) (found : s.order = order)
    (heq : Graph.orderFrom deps deps.length [] = order) :
    (∀ i ∈ List.range deps.length, decide (0 < s.pending.getD i 0) = !order.contains i) ∧
      (order.length < deps.length ↔ ∃ i ∈ List.range deps.length, i ∉ order) := by
  subst found
  obtain ⟨more, hmore, inOrder, bound, stop⟩ := Graph.orderFrom_spec deps deps.length []
  rw [heq, List.nil_append] at hmore
  rw [List.nil_append, ← hmore] at stop
  rw [← hmore] at inOrder bound
  have short := length_lt_iff_exists_notMem inOrder.nodup.1 bound
  refine ⟨fun i hi => ?_, short⟩
  rw [Bool.eq_iff_iff, decide_eq_true_iff, Bool.not_eq_true', List.contains_eq_mem,
    decide_eq_false_iff_not]
  constructor
  · intro waits ordered
    rw [counts.ordered i ordered] at waits
    exact Nat.lt_irrefl 0 waits
  · intro new
    refine Nat.pos_of_ne_zero fun zero => ?_
    have ready : i ∈ s.ready := (counts.ready i).2 ⟨List.mem_range.1 hi, new, zero⟩
    rcases stop with stop | stop
    · rw [← counts.min?_ready, List.min?_eq_none_iff] at stop
      rw [stop] at ready
      cases ready
    · have := short.2 ⟨i, hi, new⟩
      omega

end Worklist

namespace Graph

variable {g : Graph}

/-! ## The order -/

/-- Counting and searching find the same order, or the same cycle. -/
theorem orderByCounting_eq (g : Graph) : g.orderByCounting = g.topologicalOrder := by
  unfold orderByCounting topologicalOrder
  dsimp only
  generalize g.dependencies = deps
  have table : ∀ i < deps.length,
      ((List.range deps.length).map (Worklist.consumers deps)).getD i [] =
        Worklist.consumers deps i := by
    intro i hi
    simp [hi]
  obtain ⟨order, counts⟩ := (Worklist.Counts.start deps).run table deps.length
  generalize Worklist.run _ deps.length (Worklist.start deps) = s at order counts
  generalize heq : orderFrom deps deps.length [] = found
  obtain ⟨waiting, short⟩ := Worklist.finished counts (order.trans heq) heq
  rw [order.trans heq, List.find?_congr waiting]
  cases (List.range deps.length).find? fun i => (deps.getD i []).contains i with
  | some i => rfl
  | none =>
      cases hstuck : (List.range deps.length).find? fun i => !found.contains i with
      | some i =>
          have new : i ∉ found := by simpa using List.find?_some hstuck
          have stuck := short.2 ⟨i, List.mem_of_find?_eq_some hstuck, new⟩
          dsimp only
          rw [if_pos stuck]
          rfl
      | none =>
          have all : ¬found.length < deps.length := by
            intro stuck
            obtain ⟨i, hi, new⟩ := short.1 stuck
            exact absurd (List.find?_eq_none.1 hstuck i hi) (by simpa using new)
          dsimp only
          rw [if_neg all]

/-! ## Sorting in place -/

/-- Sorting puts the nodes into the order that is found. -/
theorem sortInPlace_of_ok {order : List Nat} (h : g.orderByCounting = .ok order) :
    g.sortInPlace = (.ok (), { g with nodes := order.filterMap fun i => g.nodes[i]? }) := by
  have perm := (topologicalOrder_eq_ok ((orderByCounting_eq g).symm.trans h)).1
  unfold sortInPlace
  rw [h]
  dsimp only
  split
  · rename_i sorted
    rw [perm.length_eq, List.length_range] at sorted
    rw [sorted, filterMap_range_getElem?]
    cases g
    rfl
  · rfl

/-- Nodes that are in order stay as they are. -/
theorem sortInPlace_of_sorted (sorted : Node.Sorted g.nodes) : g.sortInPlace = (.ok (), g) := by
  have order : g.orderByCounting = .ok (List.range g.nodes.length) :=
    (orderByCounting_eq g).trans (topologicalOrder_of_sorted sorted)
  rw [sortInPlace_of_ok order, filterMap_range_getElem?]
  cases g
  rfl

theorem sortInPlace_of_error {c : Cycle} (h : g.orderByCounting = .error c) :
    g.sortInPlace = (.error c, g) := by
  unfold sortInPlace
  rw [h]

/-- The order is found exactly when no node waits for itself, directly or through others, and it is the
lexicographically least one.  Nodes that are in order stay as they are, also those that were sorted,
and so do the nodes of a graph with a cycle. -/
theorem orderByCounting_exact (one : g.OneProducer) :
    ((∃ order, g.orderByCounting = .ok order) ↔ ∀ i, ¬Relation.TransGen g.DependsOn i i) ∧
      (∀ order, g.orderByCounting = .ok order → g.IsOrder order ∧
        ∀ other, g.IsOrder other → order = other ∨ List.Lex (· < ·) order other) ∧
      (g.IsOrder (List.range g.nodes.length) → g.sortInPlace = (.ok (), g)) ∧
      (∀ after, g.sortInPlace = (.ok (), after) →
        (∃ order, g.orderByCounting = .ok order ∧
          after = { g with nodes := order.filterMap fun i => g.nodes[i]? }) ∧
        after.sortInPlace = (.ok (), after)) ∧
      ((∃ i, Relation.TransGen g.DependsOn i i) → ∃ c, g.sortInPlace = (.error c, g)) := by
  have succeeds : (∃ order, g.orderByCounting = .ok order) ↔
      ∀ i, ¬Relation.TransGen g.DependsOn i i := by
    rw [orderByCounting_eq]
    exact topologicalOrder_isOk_iff_irreflexive one
  have isOrder : ∀ {order}, g.orderByCounting = .ok order → g.IsOrder order := fun h =>
    one.isOrder_topologicalOrder ((orderByCounting_eq g).symm.trans h)
  refine ⟨succeeds, fun order h => ⟨isOrder h, fun other hother => ?_⟩, fun h => ?_,
    fun after h => ?_, fun cycle => ?_⟩
  · exact topologicalOrder_least one ((orderByCounting_eq g).symm.trans h) hother
  · have sorted := h.sorted one
    rw [filterMap_range_getElem?] at sorted
    exact sortInPlace_of_sorted sorted
  · cases horder : g.orderByCounting with
    | error c =>
        rw [sortInPlace_of_error horder] at h
        cases h
    | ok order =>
        rw [sortInPlace_of_ok horder] at h
        cases h
        exact ⟨⟨order, rfl, rfl⟩, sortInPlace_of_sorted ((isOrder horder).sorted one)⟩
  · cases horder : g.orderByCounting with
    | error c => exact ⟨c, sortInPlace_of_error horder⟩
    | ok order =>
        obtain ⟨i, path⟩ := cycle
        exact absurd path (succeeds.1 ⟨order, horder⟩ i)

/-- A graph whose nodes are out of order.  One of them reads a value twice, and one reads it in a nested
graph only. -/
def readsTwice : Graph where
  inputs := [{ name := "x" }, { name := "c" }]
  nodes := [{ opType := "Mul", inputs := ["t", "t"], outputs := ["y"] },
    { opType := "If"
      inputs := ["c"]
      outputs := ["z"]
      attributes := [{ name := "then_branch"
                       value := .graph
                        { nodes := [{ opType := "Add", inputs := ["t", "y"], outputs := ["u"] }]
                          outputs := [{ name := "u" }] } }] },
    { opType := "Neg", inputs := ["x"], outputs := ["t"] },
    { opType := "Abs", inputs := ["x"], outputs := ["w"] }]
  outputs := [{ name := "z" }, { name := "w" }]

theorem orderByCounting_readsTwice :
    readsTwice.OneProducer ∧ readsTwice.orderByCounting = .ok [2, 0, 1, 3] ∧
      (∀ other, readsTwice.IsOrder other →
        [2, 0, 1, 3] = other ∨ List.Lex (· < ·) [2, 0, 1, 3] other) ∧
      ∀ i, ¬Relation.TransGen readsTwice.DependsOn i i := by
  have one : readsTwice.OneProducer := .of_distinct (by unfold Node.Distinct; decide)
  have order : readsTwice.orderByCounting = .ok [2, 0, 1, 3] := by
    decide +kernel
  obtain ⟨succeeds, least, -⟩ := orderByCounting_exact one
  exact ⟨one, order, (least _ order).2, succeeds.1 ⟨_, order⟩⟩

end Graph
end TensorGraph
