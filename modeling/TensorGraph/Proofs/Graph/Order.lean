import TensorGraph.Graph.Order
import TensorGraph.Proofs.Graph.Names

/-!
# Topological orders

Input:

* nodes, none of which produces a value that another one produces.

Algorithm:

* `Graph.topologicalOrder` takes the first node that waits for ordered nodes only, as long as there
  is one.

Main results:

* `Graph.topologicalOrder_isOk_iff`: the order succeeds exactly when values can be ranked so that
  every node reads values of lower rank than those that it produces;
* `Graph.sortTopologically_eq_ok`: afterwards no node reads what it or a later node produces;
* `Graph.topologicalOrder_of_sorted`: nodes that are in order stay as they are.
-/

namespace TensorGraph

namespace Node

/-- Whether values are ranked so that nodes read values of lower rank than those that they produce.
-/
def Ranks (rank : String → Nat) (ns : List Node) : Prop :=
  ∀ n ∈ ns, ∀ x ∈ n.reads, ∀ y ∈ n.presentOutputs, rank x < rank y

/-- Whether no node waits for itself, directly or through others. -/
def Acyclic (ns : List Node) : Prop := ∃ rank, Ranks rank ns

/-- Whether no node reads what it or a later node produces. -/
def Sorted : List Node → Prop
  | [] => True
  | n :: rest => (∀ x ∈ n.reads, ∀ m ∈ n :: rest, x ∉ m.presentOutputs) ∧ Sorted rest

/-- Check that no node reads what it or a later node produces. -/
def isSorted : List Node → Bool
  | [] => true
  | n :: rest =>
    (n.reads.all fun x => (n :: rest).all fun m => !m.presentOutputs.contains x) && isSorted rest

theorem isSorted_iff {ns : List Node} : isSorted ns = true ↔ Sorted ns := by
  induction ns with
  | nil => simp [isSorted, Sorted]
  | cons n rest ih => simp [isSorted, Sorted, ih]

instance (ns : List Node) : Decidable (Sorted ns) := decidable_of_iff _ isSorted_iff

/-- Whether no two nodes, and no two outputs of a node, have a name in common. -/
def Distinct (ns : List Node) : Prop := (ns.flatMap presentOutputs).Nodup

/-! ## Ranks -/

section

variable {ns ms : List Node}

theorem Acyclic.subset (h : Acyclic ns) (sub : ∀ m ∈ ms, m ∈ ns) : Acyclic ms := by
  obtain ⟨rank, hr⟩ := h
  exact ⟨rank, fun m hm => hr m (sub m hm)⟩

/-- Values that no node produces can have rank zero, and all others a greater one. -/
theorem Acyclic.exists_rank (h : Acyclic ns) :
    ∃ rank, Ranks rank ns ∧ ∀ x, rank x = 0 ↔ x ∉ ns.flatMap presentOutputs := by
  obtain ⟨rank, hr⟩ := h
  refine ⟨fun x => if x ∈ ns.flatMap presentOutputs then rank x + 1 else 0, ?_, ?_⟩
  · intro n hn x hx y hy
    have hy' : y ∈ ns.flatMap presentOutputs := List.mem_flatMap.2 ⟨n, hn, hy⟩
    have := hr n hn x hx y hy
    simp only [hy', if_true]
    split <;> omega
  · intro x
    by_cases hx : x ∈ ns.flatMap presentOutputs <;> simp [hx]

theorem distinct_cons {n : Node} :
    Distinct (n :: ns) ↔
      n.presentOutputs.Nodup ∧ Distinct ns ∧
        ∀ x ∈ n.presentOutputs, x ∉ ns.flatMap presentOutputs := by
  unfold Distinct
  rw [List.flatMap_cons, List.nodup_append]
  constructor
  · rintro ⟨first, rest, apart⟩
    exact ⟨first, rest, fun x hx hy => apart x hx x hy rfl⟩
  · rintro ⟨first, rest, apart⟩
    refine ⟨first, rest, ?_⟩
    rintro x hx y hy rfl
    exact apart x hx hy

/-- Two nodes with a common output stand at the same position. -/
theorem Distinct.eq_index (h : Distinct ns) {i j : Nat} {n m : Node} {x : String}
    (hi : ns[i]? = some n) (hj : ns[j]? = some m) (hn : x ∈ n.presentOutputs)
    (hm : x ∈ m.presentOutputs) : i = j := by
  have apart := (List.pairwise_flatMap.1 h).2
  obtain ⟨hi', rfl⟩ := List.getElem?_eq_some_iff.1 hi
  obtain ⟨hj', rfl⟩ := List.getElem?_eq_some_iff.1 hj
  rw [List.pairwise_iff_getElem] at apart
  rcases Nat.lt_trichotomy i j with hlt | heq | hgt
  · exact absurd rfl (apart i j hi' hj' hlt x hn x hm)
  · exact heq
  · exact absurd rfl (apart j i hj' hi' hgt x hm x hn)

/-- Whether values are ranked so that what nodes read has a lower rank than what they produce, and
what they produce a lower rank than what later nodes produce. -/
structure Layout (rank : String → Nat) (ns : List Node) : Prop where
  reads : Ranks rank ns
  order : ns.Pairwise fun a b => ∀ y ∈ a.presentOutputs, ∀ z ∈ b.presentOutputs, rank y < rank z

/-- Nodes in order can be ranked by their position. -/
theorem Sorted.exists_layout (hs : Sorted ns) (hd : Distinct ns) :
    ∃ rank, Layout rank ns ∧ ∀ x, rank x = 0 ↔ x ∉ ns.flatMap presentOutputs := by
  induction ns with
  | nil => exact ⟨fun _ => 0, ⟨fun n hn => (by cases hn), List.Pairwise.nil⟩, by simp⟩
  | cons n rest ih =>
      obtain ⟨-, distinct, apart⟩ := distinct_cons.1 hd
      obtain ⟨first, sorted⟩ := hs
      obtain ⟨rank, layout, zero⟩ := ih sorted distinct
      -- the outputs of the first node come before those of all others
      let rank' : String → Nat := fun x =>
        if x ∈ n.presentOutputs then 1 else if rank x = 0 then 0 else rank x + 1
      have own : ∀ y ∈ n.presentOutputs, rank' y = 1 := fun y hy => by simp [rank', hy]
      have later : ∀ m ∈ rest, ∀ y ∈ m.presentOutputs, rank' y = rank y + 1 ∧ rank y ≠ 0 := by
        intro m hm y hy
        have hprod : y ∈ rest.flatMap presentOutputs := List.mem_flatMap.2 ⟨m, hm, hy⟩
        have hy' : y ∉ n.presentOutputs := fun h => apart y h hprod
        have hne : rank y ≠ 0 := fun h => (zero y).1 h hprod
        simp [rank', hy', hne]
      have le : ∀ x, rank' x ≤ rank x + 1 := by
        intro x
        simp only [rank']
        split
        · omega
        · split <;> omega
      refine ⟨rank', ⟨?_, List.pairwise_cons.2 ⟨?_, ?_⟩⟩, ?_⟩
      · intro m hm x hx y hy
        rcases List.mem_cons.1 hm with rfl | hm
        · have hx' : x ∉ m.presentOutputs := first x hx m List.mem_cons_self
          have hx'' : rank x = 0 := by
            rw [zero]
            intro produced
            obtain ⟨k, hk, hxk⟩ := List.mem_flatMap.1 produced
            exact first x hx k (List.mem_cons_of_mem _ hk) hxk
          simp [rank', hx', hx'', hy]
        · have hlt := layout.reads m hm x hx y hy
          have := later m hm y hy
          have := le x
          omega
      · intro m hm y hy z hz
        have := own y hy
        have := later m hm z hz
        omega
      · refine layout.order.imp_of_mem ?_
        intro a b ha hb hlt y hy z hz
        have := hlt y hy z hz
        have := later a ha y hy
        have := later b hb z hz
        omega
      · intro x
        simp only [List.flatMap_cons, List.mem_append, not_or, ← zero x, rank']
        by_cases hx : x ∈ n.presentOutputs
        · simp [hx]
        · by_cases h0 : rank x = 0 <;> simp [hx, h0]

/-- Values that no node produces can have rank zero. -/
theorem Layout.exists_zero {rank : String → Nat} (h : Layout rank ns) :
    ∃ rank, Layout rank ns ∧ ∀ x, x ∉ ns.flatMap presentOutputs → rank x = 0 := by
  have produced : ∀ n ∈ ns, ∀ y ∈ n.presentOutputs, y ∈ ns.flatMap presentOutputs :=
    fun n hn y hy => List.mem_flatMap.2 ⟨n, hn, hy⟩
  refine ⟨fun x => if x ∈ ns.flatMap presentOutputs then rank x + 1 else 0, ⟨?_, ?_⟩, ?_⟩
  · intro n hn x hx y hy
    have := h.reads n hn x hx y hy
    simp only [produced n hn y hy, if_true]
    split <;> omega
  · refine h.order.imp_of_mem ?_
    intro a b ha hb hlt y hy z hz
    have := hlt y hy z hz
    simp only [produced a ha y hy, produced b hb z hz, if_true]
    omega
  · exact fun x hx => if_neg hx

theorem Layout.acyclic {rank : String → Nat} (h : Layout rank ns) : Acyclic ns := ⟨rank, h.reads⟩

theorem Sorted.acyclic (hs : Sorted ns) (hd : Distinct ns) : Acyclic ns := by
  obtain ⟨rank, layout, -⟩ := hs.exists_layout hd
  exact layout.acyclic

/-- Nodes are sorted when what a node reads is not produced at its position or a later one. -/
theorem sorted_of_getElem? 
    (apart : ∀ (k : Nat) n, ns[k]? = some n → ∀ x ∈ n.reads, ∀ m ∈ ns.drop k, x ∉ m.presentOutputs) :
    Sorted ns := by
  induction ns with
  | nil => trivial
  | cons n rest ih => exact ⟨apart 0 n rfl, ih fun k m hm => apart (k + 1) m hm⟩

theorem Sorted.of_cons {n : Node} (h : Sorted (n :: ns)) : Sorted ns := h.2

/-- Among sorted nodes, what a node reads is not produced by it or at a later position. -/
theorem Sorted.not_mem_presentOutputs (h : Sorted ns) {i j : Nat} {n m : Node} (hi : ns[i]? = some n)
    (hj : ns[j]? = some m) (hij : i ≤ j) {x : String} (hx : x ∈ n.reads) :
    x ∉ m.presentOutputs := by
  induction ns generalizing i j with
  | nil => cases hi
  | cons k rest ih =>
      cases i with
      | zero =>
          cases hi
          exact h.1 x hx m (List.mem_of_getElem? hj)
      | succ i =>
          cases j with
          | zero => omega
          | succ j => exact ih h.2 hi hj (by omega)

end

end Node

namespace Graph

variable {g : Graph}

/-! ## Dependencies -/

theorem mem_productions {x : String} {i : Nat} :
    (x, i) ∈ g.productions ↔ ∃ n, g.nodes[i]? = some n ∧ x ∈ n.presentOutputs := by
  unfold productions
  simp only [List.mem_flatMap, List.mem_map, Prod.mk.injEq]
  constructor
  · rintro ⟨⟨n, j⟩, hn, y, hy, rfl, rfl⟩
    exact ⟨n, List.mem_zipIdx_iff_getElem?.1 hn, hy⟩
  · rintro ⟨n, hn, hx⟩
    exact ⟨(n, i), List.mem_zipIdx_iff_getElem?.2 hn, x, hx, rfl, rfl⟩

/-- The producer that a graph finds for a value produces it. -/
theorem lastProducer?_some {x : String} {i : Nat} (h : g.lastProducer? x = some i) :
    ∃ n, g.nodes[i]? = some n ∧ x ∈ n.presentOutputs := by
  unfold lastProducer? at h
  obtain ⟨⟨y, j⟩, hf, rfl⟩ := Option.map_eq_some_iff.1 h
  have hmem := List.mem_reverse.1 (List.mem_of_find?_eq_some hf)
  have hname := List.find?_some hf
  simp only [beq_iff_eq] at hname
  subst hname
  exact mem_productions.1 hmem

theorem exists_lastProducer? {x : String} (h : x ∈ g.produced) :
    ∃ i, g.lastProducer? x = some i := by
  obtain ⟨n, hn, hx⟩ := mem_produced.1 h
  obtain ⟨i, hi⟩ := List.getElem?_of_mem hn
  unfold lastProducer?
  have hmem : (x, i) ∈ g.productions := mem_productions.2 ⟨n, hi, hx⟩
  cases hf : g.productions.reverse.find? fun p => p.1 == x with
  | none =>
      rw [List.find?_eq_none] at hf
      exact absurd (hf (x, i) (List.mem_reverse.2 hmem)) (by simp)
  | some p => exact ⟨p.2, rfl⟩

/-- Whether each value has at most one producer. -/
def OneProducer (g : Graph) : Prop :=
  ∀ (i j : Nat) (n m : Node) (x : String), g.nodes[i]? = some n → g.nodes[j]? = some m →
    x ∈ n.presentOutputs → x ∈ m.presentOutputs → i = j

theorem OneProducer.of_distinct (hd : Node.Distinct g.nodes) : g.OneProducer :=
  fun _ _ _ _ _ hi hj hn hm => hd.eq_index hi hj hn hm

/-- A value's only producer is the one that a graph finds. -/
theorem OneProducer.lastProducer?_eq (one : g.OneProducer) {i : Nat} {n : Node} {x : String}
    (hi : g.nodes[i]? = some n) (hx : x ∈ n.presentOutputs) : g.lastProducer? x = some i := by
  have hp : x ∈ g.produced := mem_produced.2 ⟨n, List.mem_of_getElem? hi, hx⟩
  obtain ⟨j, hj⟩ := exists_lastProducer? hp
  obtain ⟨m, hm, hxm⟩ := lastProducer?_some hj
  rw [hj, one j i m n x hm hi hxm hx]

/-- With distinct outputs, each node is the producer of its outputs. -/
theorem lastProducer?_eq (hd : Node.Distinct g.nodes) {i : Nat} {n : Node} {x : String}
    (hi : g.nodes[i]? = some n) (hx : x ∈ n.presentOutputs) : g.lastProducer? x = some i :=
  (OneProducer.of_distinct hd).lastProducer?_eq hi hx

theorem length_dependencies : g.dependencies.length = g.nodes.length := by
  simp [dependencies]

/-- A node depends on the producers of what it reads. -/
theorem mem_dependencies {i j : Nat} :
    j ∈ g.dependencies.getD i [] ↔
      ∃ n, g.nodes[i]? = some n ∧ ∃ x ∈ n.reads, g.lastProducer? x = some j := by
  unfold dependencies
  rw [List.getD_eq_getElem?_getD, List.getElem?_map]
  cases h : g.nodes[i]? with
  | none => simp
  | some n => simp [List.mem_filterMap]

/-! ## Lists in order -/

/-- Whether each number in a list is new and depends only on numbers before it. -/
def InOrder (deps : List (List Nat)) : List Nat → List Nat → Prop
  | _, [] => True
  | before, i :: rest =>
    i ∉ before ∧ (∀ j ∈ deps.getD i [], j ∈ before) ∧ InOrder deps (before ++ [i]) rest

theorem InOrder.nodup {deps : List (List Nat)} {before order : List Nat}
    (h : InOrder deps before order) :
    order.Nodup ∧ ∀ i ∈ order, i ∉ before := by
  induction order generalizing before with
  | nil => simp
  | cons i rest ih =>
      obtain ⟨new, -, later⟩ := h
      obtain ⟨nodup, apart⟩ := ih later
      refine ⟨List.nodup_cons.2 ⟨fun hi => apart i hi (by simp), nodup⟩, ?_⟩
      intro j hj
      rcases List.mem_cons.1 hj with rfl | hj
      · exact new
      · exact fun hb => apart j hj (List.mem_append_left _ hb)

theorem nextReady?_some {deps : List (List Nat)} {done : List Nat} {i : Nat}
    (h : nextReady? deps done = some i) :
    i < deps.length ∧ i ∉ done ∧ ∀ j ∈ deps.getD i [], j ∈ done := by
  unfold nextReady? at h
  have hmem := List.mem_of_find?_eq_some h
  have hready := List.find?_some h
  simp only [List.contains_eq_mem, Bool.and_eq_true, Bool.not_eq_true', decide_eq_false_iff_not,
    List.all_eq_true, decide_eq_true_eq] at hready
  exact ⟨List.mem_range.1 hmem, hready.1, hready.2⟩

theorem nextReady?_none {deps : List (List Nat)} {done : List Nat} {i : Nat}
    (h : nextReady? deps done = none) (hi : i < deps.length) (hd : i ∉ done) :
    ∃ j ∈ deps.getD i [], j ∉ done := by
  unfold nextReady? at h
  rw [List.find?_eq_none] at h
  have waiting := h i (List.mem_range.2 hi)
  simp only [List.contains_eq_mem, hd, decide_false, Bool.not_false, Bool.true_and,
    Bool.not_eq_true, List.all_eq_false] at waiting
  obtain ⟨j, hj, hjd⟩ := waiting
  exact ⟨j, hj, by simpa using hjd⟩

/-- An extended order stays in order.  It ends when no node is ready, or with its count. -/
theorem orderFrom_spec (deps : List (List Nat)) (count : Nat) (done : List Nat) :
    ∃ more, orderFrom deps count done = done ++ more ∧ InOrder deps done more ∧
      (∀ i ∈ more, i < deps.length) ∧
      (nextReady? deps (done ++ more) = none ∨ more.length = count) := by
  induction count generalizing done with
  | zero => exact ⟨[], by simp [orderFrom], trivial, by simp, Or.inr rfl⟩
  | succ count ih =>
      cases h : nextReady? deps done with
      | none =>
          refine ⟨[], by simp [orderFrom, h], trivial, by simp, Or.inl ?_⟩
          rw [List.append_nil]
          exact h
      | some i =>
          obtain ⟨hlt, hnew, hdeps⟩ := nextReady?_some h
          obtain ⟨more, heq, order, bound, stop⟩ := ih (done ++ [i])
          refine ⟨i :: more, ?_, ⟨hnew, hdeps, order⟩, ?_, ?_⟩
          · simp [orderFrom, h, heq]
          · intro j hj
            rcases List.mem_cons.1 hj with rfl | hj
            · exact hlt
            · exact bound j hj
          · rcases stop with stop | stop
            · exact Or.inl (by simpa using stop)
            · exact Or.inr (by simp [stop])

/-- The order that is found has every index once, after those that it depends on. -/
theorem topologicalOrder_eq_ok {order : List Nat} (h : g.topologicalOrder = .ok order) :
    order.Perm (List.range g.nodes.length) ∧ InOrder g.dependencies [] order := by
  unfold topologicalOrder at h
  obtain ⟨more, heq, inOrder, bound, -⟩ :=
    orderFrom_spec g.dependencies g.dependencies.length []
  simp only [List.nil_append] at heq
  simp only [heq] at h
  split at h
  · cases h
  · split at h
    · cases h
    · rename_i all
      cases h
      refine ⟨?_, inOrder⟩
      rw [List.perm_ext_iff_of_nodup inOrder.nodup.1 List.nodup_range]
      intro i
      rw [List.mem_range, ← length_dependencies]
      refine ⟨bound i, fun hi => ?_⟩
      have := List.find?_eq_none.1 all i (List.mem_range.2 hi)
      simpa using this

/-- Ranked nodes can be ordered. -/
theorem topologicalOrder_of_acyclic (h : Node.Acyclic g.nodes) :
    ∃ order, g.topologicalOrder = .ok order := by
  obtain ⟨rank, hr⟩ := h
  obtain ⟨more, heq, inOrder, bound, stop⟩ :=
    orderFrom_spec g.dependencies g.dependencies.length []
  simp only [List.nil_append] at heq stop
  have lower : ∀ {i j : Nat} {m : Node} {y : String}, g.nodes[i]? = some m →
      y ∈ m.presentOutputs → j ∈ g.dependencies.getD i [] →
      ∃ k x, g.nodes[j]? = some k ∧ x ∈ k.presentOutputs ∧ rank x < rank y := by
    intro i j m y hm hy hj
    obtain ⟨n, hn, x, hx, hprod⟩ := mem_dependencies.1 hj
    obtain ⟨k, hk, hxk⟩ := lastProducer?_some hprod
    rw [hm] at hn
    cases hn
    exact ⟨k, x, hk, hxk, hr m (List.mem_of_getElem? hm) x hx y hy⟩
  have noSelf : ∀ i, i ∉ g.dependencies.getD i [] := by
    intro i hi
    obtain ⟨n, hn, x, hx, hprod⟩ := mem_dependencies.1 hi
    obtain ⟨k, hk, hxk⟩ := lastProducer?_some hprod
    rw [hn] at hk
    cases hk
    exact Nat.lt_irrefl _ (hr n (List.mem_of_getElem? hn) x hx x hxk)
  -- among the waiting nodes with outputs, one with an output of least rank is ready
  have noWaiting : ∀ r i m y, nextReady? g.dependencies more = none → g.nodes[i]? = some m →
      y ∈ m.presentOutputs → rank y = r → i ∉ more → False := by
    intro r
    induction r using Nat.strongRecOn with
    | ind r ih =>
        intro i m y none hm hy hrank hi
        have hlt : i < g.dependencies.length := by
          rw [length_dependencies]
          exact (List.getElem?_eq_some_iff.1 hm).1
        obtain ⟨j, hj, hjd⟩ := nextReady?_none none hlt hi
        obtain ⟨k, x, hk, hx, hxy⟩ := lower hm hy hj
        exact ih (rank x) (hrank ▸ hxy) j k x none hk hx rfl hjd
  have complete : ∀ i < g.dependencies.length, i ∈ more := by
    intro i hi
    rcases stop with stop | stop
    · by_cases hd : i ∈ more
      · exact hd
      · obtain ⟨j, hj, hjd⟩ := nextReady?_none stop hi hd
        obtain ⟨n, hn, x, hx, hprod⟩ := mem_dependencies.1 hj
        obtain ⟨k, hk, hxk⟩ := lastProducer?_some hprod
        exact (noWaiting _ j k x stop hk hxk rfl hjd).elim
    · by_cases hd : i ∈ more
      · exact hd
      · have nodup : (i :: more).Nodup := List.nodup_cons.2 ⟨hd, inOrder.nodup.1⟩
        have sub : i :: more ⊆ List.range g.dependencies.length := by
          intro j hj
          rcases List.mem_cons.1 hj with rfl | hj
          · exact List.mem_range.2 hi
          · exact List.mem_range.2 (bound j hj)
        have := nodup.length_le_of_subset sub
        rw [List.length_cons, List.length_range] at this
        omega
  refine ⟨more, ?_⟩
  unfold topologicalOrder
  simp only [heq]
  have first : (List.range g.dependencies.length).find?
      (fun i => (g.dependencies.getD i []).contains i) = none := by
    rw [List.find?_eq_none]
    intro i _
    simpa using noSelf i
  have second : (List.range g.dependencies.length).find? (fun i => !more.contains i) = none := by
    rw [List.find?_eq_none]
    intro i hi
    simpa using complete i (List.mem_range.1 hi)
  rw [first, second]

/-! ## Graphs with the same dependencies -/

section

variable {deps deps' : List (List Nat)}

theorem nextReady?_congr (length : deps'.length = deps.length)
    (same : ∀ i j, j ∈ deps'.getD i [] ↔ j ∈ deps.getD i []) (done : List Nat) :
    nextReady? deps' done = nextReady? deps done := by
  have ready : ∀ i, (deps'.getD i []).all done.contains = (deps.getD i []).all done.contains := by
    intro i
    rw [Bool.eq_iff_iff, List.all_eq_true, List.all_eq_true]
    exact ⟨fun h j hj => h j ((same i j).2 hj), fun h j hj => h j ((same i j).1 hj)⟩
  unfold nextReady?
  simp only [length, ready]

theorem orderFrom_congr (length : deps'.length = deps.length)
    (same : ∀ i j, j ∈ deps'.getD i [] ↔ j ∈ deps.getD i []) (count : Nat) (done : List Nat) :
    orderFrom deps' count done = orderFrom deps count done := by
  induction count generalizing done with
  | zero => rfl
  | succ count ih =>
      unfold orderFrom
      rw [nextReady?_congr length same]
      cases nextReady? deps done with
      | none => rfl
      | some i => exact ih _

end

/-- An order depends on the dependencies only, as sets. -/
theorem topologicalOrder_of_same_dependencies {g' : Graph}
    (length : g'.nodes.length = g.nodes.length)
    (same : ∀ i j, j ∈ g'.dependencies.getD i [] ↔ j ∈ g.dependencies.getD i []) {order : List Nat}
    (h : g.topologicalOrder = .ok order) : g'.topologicalOrder = .ok order := by
  have hlength : g'.dependencies.length = g.dependencies.length := by
    rw [length_dependencies, length_dependencies, length]
  have self : ∀ i, (g'.dependencies.getD i []).contains i = (g.dependencies.getD i []).contains i := by
    intro i
    rw [Bool.eq_iff_iff, List.contains_iff_mem, List.contains_iff_mem, same]
  unfold topologicalOrder at h ⊢
  simp only [hlength, self, orderFrom_congr hlength same] at h ⊢
  split at h
  · cases h
  · split at h
    · cases h
    · exact h

/-! ## Sorted nodes -/

/-- The nodes at indexes in order are sorted, when each value has one producer. -/
theorem OneProducer.sorted_of_inOrder (one : g.OneProducer) {before order : List Nat}
    (h : InOrder g.dependencies before order) :
    Node.Sorted (order.filterMap fun i => g.nodes[i]?) := by
  induction order generalizing before with
  | nil => exact trivial
  | cons i rest ih =>
      have new := h.nodup.2
      obtain ⟨-, hdeps, later⟩ := h
      cases hi : g.nodes[i]? with
      | none =>
          rw [List.filterMap_cons_none hi]
          exact ih later
      | some n =>
          rw [List.filterMap_cons_some hi]
          refine ⟨?_, ih later⟩
          intro x hx m hm hxm
          have : m ∈ (i :: rest).filterMap fun i => g.nodes[i]? := by
            rw [List.filterMap_cons_some hi]
            exact hm
          obtain ⟨j, hj, hjm⟩ := List.mem_filterMap.1 this
          have hdep : j ∈ g.dependencies.getD i [] :=
            mem_dependencies.2 ⟨n, hi, x, hx, one.lastProducer?_eq hjm hxm⟩
          exact new j hj (hdeps j hdep)

/-- The nodes at indexes in order are sorted, when no node produces what one before them does. -/
theorem sorted_of_inOrder (hd : Node.Distinct g.nodes) {before order : List Nat}
    (h : InOrder g.dependencies before order) :
    Node.Sorted (order.filterMap fun i => g.nodes[i]?) :=
  (OneProducer.of_distinct hd).sorted_of_inOrder h

/-- Sorted nodes depend on nodes before them. -/
theorem lt_of_mem_dependencies (sorted : Node.Sorted g.nodes) {i j : Nat}
    (h : j ∈ g.dependencies.getD i []) : j < i := by
  obtain ⟨n, hi, x, hx, hj⟩ := mem_dependencies.1 h
  obtain ⟨m, hm, hout⟩ := lastProducer?_some hj
  refine Nat.lt_of_not_le fun hij => ?_
  exact sorted.not_mem_presentOutputs hi hm hij hx hout

/-- When all depend on numbers before them, the next number is ready. -/
theorem nextReady?_range {deps : List (List Nat)} (hdeps : ∀ i, ∀ j ∈ deps.getD i [], j < i) {k : Nat}
    (hk : k < deps.length) : nextReady? deps (List.range k) = some k := by
  unfold nextReady?
  rw [List.find?_range_eq_some]
  simp only [List.contains_eq_mem, List.mem_range, Bool.and_eq_true, Bool.not_eq_true',
    decide_eq_false_iff_not, Nat.lt_irrefl, not_false_iff, true_and, List.all_eq_true,
    decide_eq_true_eq]
  exact ⟨hdeps k, hk, fun j hj => by simp [hj]⟩

theorem orderFrom_range {deps : List (List Nat)} (hdeps : ∀ i, ∀ j ∈ deps.getD i [], j < i)
    (count k : Nat) (h : k + count ≤ deps.length) :
    orderFrom deps count (List.range k) = List.range (k + count) := by
  induction count generalizing k with
  | zero => rfl
  | succ count ih =>
      unfold orderFrom
      rw [nextReady?_range hdeps (by omega)]
      dsimp only
      rw [← List.range_succ, ih (k + 1) (by omega)]
      congr 1
      omega

/-- Sorted nodes stay where they are. -/
theorem topologicalOrder_of_sorted (sorted : Node.Sorted g.nodes) :
    g.topologicalOrder = .ok (List.range g.nodes.length) := by
  have hdeps : ∀ i, ∀ j ∈ g.dependencies.getD i [], j < i := fun i j hj =>
    lt_of_mem_dependencies sorted hj
  have order := orderFrom_range hdeps g.dependencies.length 0 (by omega)
  rw [List.range_zero, Nat.zero_add] at order
  have noSelf : (List.range g.dependencies.length).find?
      (fun i => (g.dependencies.getD i []).contains i) = none := by
    rw [List.find?_eq_none]
    intro i _ hi
    exact Nat.lt_irrefl _ (hdeps i i (by simpa using hi))
  have complete : (List.range g.dependencies.length).find?
      (fun i => !(List.range g.dependencies.length).contains i) = none := by
    rw [List.find?_eq_none]
    intro i hi
    simpa using hi
  unfold topologicalOrder
  simp only [order, noSelf, complete]
  rw [length_dependencies]

theorem filterMap_range_getElem? {α : Type} (l : List α) :
    (List.range l.length).filterMap (fun i => l[i]?) = l := by
  induction l with
  | nil => rfl
  | cons a rest ih => simpa [List.range_succ_eq_map, List.filterMap_map, Function.comp_def] using ih

/-- The nodes of a graph in another order. -/
theorem perm_filterMap_getElem? {order : List Nat}
    (perm : order.Perm (List.range g.nodes.length)) :
    (order.filterMap fun i => g.nodes[i]?).Perm g.nodes := by
  have := perm.filterMap fun i => g.nodes[i]?
  rwa [filterMap_range_getElem?] at this

/-- A sorted graph has its nodes in topological order. -/
theorem exists_order_of_sortTopologically {g' : Graph} (h : g.sortTopologically = .ok g') :
    ∃ order, g.topologicalOrder = .ok order ∧
      g' = { g with nodes := order.filterMap fun i => g.nodes[i]? } := by
  unfold sortTopologically at h
  cases ho : g.topologicalOrder with
  | error c =>
      rw [ho] at h
      cases h
  | ok order =>
      rw [ho] at h
      cases h
      exact ⟨order, rfl, rfl⟩

/-- Sorting only changes the order of the nodes. -/
theorem sortTopologically_perm {g' : Graph} (h : g.sortTopologically = .ok g') :
    ∃ ns, g' = { g with nodes := ns } ∧ ns.Perm g.nodes := by
  obtain ⟨order, ho, rfl⟩ := exists_order_of_sortTopologically h
  exact ⟨_, rfl, perm_filterMap_getElem? (topologicalOrder_eq_ok ho).1⟩

/-- Sorting only changes the order of the nodes, in which none reads what comes later. -/
theorem sortTopologically_eq_ok (hd : Node.Distinct g.nodes) {g' : Graph}
    (h : g.sortTopologically = .ok g') :
    ∃ ns, g' = { g with nodes := ns } ∧ ns.Perm g.nodes ∧ Node.Sorted ns := by
  obtain ⟨order, ho, rfl⟩ := exists_order_of_sortTopologically h
  obtain ⟨perm, inOrder⟩ := topologicalOrder_eq_ok ho
  exact ⟨_, rfl, perm_filterMap_getElem? perm, sorted_of_inOrder hd inOrder⟩

theorem sortTopologically_of_acyclic (h : Node.Acyclic g.nodes) :
    ∃ g', g.sortTopologically = .ok g' := by
  obtain ⟨order, ho⟩ := topologicalOrder_of_acyclic h
  unfold sortTopologically
  rw [ho]
  exact ⟨_, rfl⟩

/-- With distinct outputs, the order succeeds exactly when no node waits for itself. -/
theorem topologicalOrder_isOk_iff (hd : Node.Distinct g.nodes) :
    (∃ order, g.topologicalOrder = .ok order) ↔ Node.Acyclic g.nodes := by
  constructor
  · rintro ⟨order, ho⟩
    have hs : g.sortTopologically =
        .ok { g with nodes := order.filterMap fun i => g.nodes[i]? } := by
      unfold sortTopologically
      rw [ho]
      rfl
    obtain ⟨ns, heq, perm, sorted⟩ := sortTopologically_eq_ok hd hs
    cases heq
    have hd' : Node.Distinct (order.filterMap fun i => g.nodes[i]?) :=
      ((perm.flatMap_right Node.presentOutputs).nodup_iff).2 hd
    exact (sorted.acyclic hd').subset fun m hm => perm.mem_iff.2 hm
  · exact topologicalOrder_of_acyclic

end Graph
end TensorGraph
