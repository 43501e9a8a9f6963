import TensorGraph.Proofs.Simplification.Regular
import TensorGraph.Simplification.Fold

/-!
# Nodes that are replaced by others

Input:

* a sound graph, one of its nodes, and the nodes and initializers that take its place.

What takes the place of a node makes the outputs of the node, and apart from them only names that the
nested graphs of the node made (`Node.Expands`).  A new node ranks right above what the old one read
(`Node.Acyclic.expand`).

Main results:

* `Graph.expand_reduces` and `Graph.expand_acyclic`: the graph is reduced, and no node waits for
  itself;
* `Graph.expand_sound`: it stays sound.
-/

namespace TensorGraph

/-! ## Added initializers -/

namespace Graph

theorem count_setInitializerIn_le (name : String) (value : Tensor) (is : List Initializer)
    (x : String) :
    ((setInitializerIn name value is).map Initializer.name).count x ≤
      (is.map Initializer.name).count x + if name = x then 1 else 0 := by
  induction is with
  | nil =>
      unfold setInitializerIn
      by_cases h : name = x <;> simp [h]
  | cons i rest ih =>
      unfold setInitializerIn
      split
      · simp
      · rw [List.map_cons, List.map_cons, List.count_cons, List.count_cons]
        omega

theorem mem_names_setInitializerIn {name x : String} {value : Tensor} {is : List Initializer} :
    x ∈ (setInitializerIn name value is).map Initializer.name ↔
      x ∈ is.map Initializer.name ∨ x = name := by
  induction is with
  | nil => simp [setInitializerIn]
  | cons i rest ih =>
      unfold setInitializerIn
      split
      · rename_i heq
        simp only [List.map_cons, List.mem_cons, heq]
        constructor
        · rintro (h | h)
          · exact Or.inr h
          · exact Or.inl (Or.inr h)
        · rintro ((h | h) | h)
          · exact Or.inl h
          · exact Or.inr h
          · exact Or.inl h
      · rw [List.map_cons, List.map_cons, List.mem_cons, List.mem_cons, ih, or_assoc]

theorem mem_setInitializerIn {name : String} {value : Tensor} {is : List Initializer}
    {i : Initializer} (h : i ∈ setInitializerIn name value is) : i ∈ is ∨ i = ⟨name, value⟩ := by
  induction is with
  | nil => exact Or.inr (List.mem_singleton.1 h)
  | cons j rest ih =>
      unfold setInitializerIn at h
      split at h
      · rename_i heq
        rcases List.mem_cons.1 h with rfl | h
        · exact Or.inr (by rw [← heq])
        · exact Or.inl (List.mem_cons_of_mem _ h)
      · rcases List.mem_cons.1 h with rfl | h
        · exact Or.inl List.mem_cons_self
        · exact (ih h).imp_left (List.mem_cons_of_mem _)

/-- Set several constants in a list of initializers. -/
def addInitializers (is values : List Initializer) : List Initializer :=
  values.foldl (fun is v => setInitializerIn v.name v.value is) is

theorem setInitializers_eq (g : Graph) (values : List Initializer) :
    g.setInitializers values = { g with initializers := addInitializers g.initializers values } := by
  induction values generalizing g with
  | nil =>
      cases g
      rfl
  | cons v rest ih => exact ih (g.setInitializer v.name v.value)

theorem count_addInitializers_le (is values : List Initializer) (x : String) :
    ((addInitializers is values).map Initializer.name).count x ≤
      (is.map Initializer.name).count x + (values.map Initializer.name).count x := by
  induction values generalizing is with
  | nil => exact Nat.le_refl _
  | cons v rest ih =>
      have first := count_setInitializerIn_le v.name v.value is x
      have := ih (setInitializerIn v.name v.value is)
      rw [List.map_cons, List.count_cons]
      simp only [beq_iff_eq]
      exact Nat.le_trans this (by omega)

theorem mem_names_addInitializers {is values : List Initializer} {x : String} :
    x ∈ (addInitializers is values).map Initializer.name ↔
      x ∈ is.map Initializer.name ∨ x ∈ values.map Initializer.name := by
  induction values generalizing is with
  | nil => simp [addInitializers]
  | cons v rest ih =>
      rw [List.map_cons, List.mem_cons, ← or_assoc,
        ← @mem_names_setInitializerIn v.name x v.value is]
      exact ih

theorem mem_addInitializers {is values : List Initializer} {i : Initializer}
    (h : i ∈ addInitializers is values) : i ∈ is ∨ i ∈ values := by
  induction values generalizing is with
  | nil => exact Or.inl h
  | cons v rest ih =>
      rcases ih h with h | h
      · rcases mem_setInitializerIn h with h | rfl
        · exact Or.inl h
        · exact Or.inr List.mem_cons_self
      · exact Or.inr (List.mem_cons_of_mem _ h)

/-! ## Reductions -/

/-- A graph with other nodes and initializers that still define everything. -/
theorem Reduces.of_parts {g : Graph} {ns : List Node} {is : List Initializer}
    (made : ∀ x, (is.map Initializer.name).count x + (ns.flatMap Node.presentOutputs).count x +
      (ns.flatMap Node.innerNames).count x ≤ g.made.count x)
    (defaults : ∀ x ∈ g.inputNames, (x ∈ is.map Initializer.name ↔ x ∈ g.initializerNames))
    (keeps : ∀ x, x ∈ g.initializerNames ∨ x ∈ g.produced →
      x ∈ is.map Initializer.name ∨ x ∈ ns.flatMap Node.presentOutputs)
    (reads : ∀ m ∈ ns, ∀ x ∈ m.reads, x ∈ is.map Initializer.name ∨
      x ∈ ns.flatMap Node.presentOutputs ∨ ∃ n ∈ g.nodes, x ∈ n.reads) :
    Reduces g { g with nodes := ns, initializers := is } := by
  refine ⟨rfl, rfl, fun x => ?_, defaults, fun x hx => ?_⟩
  · rw [count_made]
    exact made x
  · obtain ⟨hread, hundef⟩ := mem_captures.1 hx
    rw [mem_definedNames, not_or, not_or] at hundef
    refine mem_captures.2 ⟨?_, fun hdef => ?_⟩
    · rcases hread with ⟨m, hm, hr⟩ | ho
      · rcases reads m hm x hr with h | h | h
        · exact absurd h hundef.2.1
        · exact absurd h hundef.2.2
        · exact Or.inl h
      · exact Or.inr ho
    · rcases mem_definedNames.1 hdef with h | h
      · exact hundef.1 h
      · exact (keeps x h).elim hundef.2.1 hundef.2.2

end Graph

/-! ## Ranks -/

namespace Node

theorem exists_between (ls us : List Nat) (h : ∀ a ∈ ls, ∀ b ∈ us, a ≤ b) :
    ∃ base, (∀ a ∈ ls, a ≤ base) ∧ ∀ b ∈ us, base ≤ b := by
  induction ls with
  | nil => exact ⟨0, by simp, fun b _ => Nat.zero_le b⟩
  | cons a rest ih =>
      obtain ⟨base, lower, upper⟩ := ih fun c hc => h c (List.mem_cons_of_mem _ hc)
      refine ⟨max a base, ?_, ?_⟩
      · intro c hc
        rcases List.mem_cons.1 hc with rfl | hc
        · exact Nat.le_max_left _ _
        · exact Nat.le_trans (lower c hc) (Nat.le_max_right _ _)
      · intro b hb
        exact Nat.max_le.2 ⟨h a List.mem_cons_self b hb, upper b hb⟩

/-- Nodes may be added whose outputs nothing reads. -/
theorem Acyclic.append {ns ms : List Node} (h : Acyclic ns)
    (unread : ∀ m ∈ ms, ∀ y ∈ m.presentOutputs, y ∉ ns.flatMap presentOutputs ∧
      ∀ k ∈ ns ++ ms, y ∉ k.reads) : Acyclic (ns ++ ms) := by
  obtain ⟨rank, ranks⟩ := h
  obtain ⟨top, htop, -⟩ := exists_between ((ms.flatMap reads).map rank) [] (by simp)
  refine ⟨fun x => if x ∈ ms.flatMap presentOutputs then top + 1 else rank x, ?_⟩
  intro m hm x hx y hy
  have hxout : x ∉ ms.flatMap presentOutputs := by
    intro hmem
    obtain ⟨k, hk, hout⟩ := List.mem_flatMap.1 hmem
    exact (unread k hk x hout).2 m hm hx
  dsimp only
  rw [if_neg hxout]
  rcases List.mem_append.1 hm with hm | hm
  · have hyout : y ∉ ms.flatMap presentOutputs := by
      intro hmem
      obtain ⟨k, hk, hout⟩ := List.mem_flatMap.1 hmem
      exact (unread k hk y hout).1 (List.mem_flatMap.2 ⟨m, hm, hy⟩)
    rw [if_neg hyout]
    exact ranks m hm x hx y hy
  · rw [if_pos (List.mem_flatMap.2 ⟨m, hm, hy⟩)]
    exact Nat.lt_succ_of_le
      (htop _ (List.mem_map.2 ⟨x, List.mem_flatMap.2 ⟨m, hm, hx⟩, rfl⟩))

/-- Nodes take the place of a node when nothing else reads what they make besides its outputs. -/
theorem Acyclic.expand {done rest news : List Node} {n : Node} {constants : List String}
    (h : Acyclic (done ++ n :: rest)) (h' : Acyclic news)
    (reads : ∀ m ∈ news, ∀ x ∈ m.reads,
      x ∈ constants ∨ x ∈ news.flatMap presentOutputs ∨ x ∈ n.reads)
    (hidden : ∀ m ∈ done ++ rest, ∀ x ∈ m.reads,
      x ∈ news.flatMap presentOutputs → x ∈ n.presentOutputs)
    (others : ∀ m ∈ done ++ rest, ∀ y ∈ m.presentOutputs,
      y ∉ constants ∧ y ∉ news.flatMap presentOutputs) :
    Acyclic (done ++ news ++ rest) := by
  obtain ⟨rank, ranks⟩ := h
  obtain ⟨inner, ranks'⟩ := h'
  have hn : n ∈ done ++ n :: rest := by simp
  have hsame : ∀ m, m ∈ done ++ rest → m ∈ done ++ n :: rest := by
    intro m hm
    rcases List.mem_append.1 hm with hm | hm
    · exact List.mem_append_left _ hm
    · exact List.mem_append_right _ (List.mem_cons_of_mem _ hm)
  obtain ⟨base, lower, upper⟩ :=
    exists_between (n.reads.map rank) (n.presentOutputs.map rank) (by
      intro a ha b hb
      obtain ⟨x, hx, rfl⟩ := List.mem_map.1 ha
      obtain ⟨y, hy, rfl⟩ := List.mem_map.1 hb
      exact Nat.le_of_lt (ranks n hn x hx y hy))
  obtain ⟨top, htop, -⟩ := exists_between ((news.flatMap presentOutputs).map inner) [] (by simp)
  -- ranks are spread out so that those of the new nodes fit between two of the old ones
  refine ⟨fun x =>
    if x ∈ news.flatMap presentOutputs then base * (top + 2) + (2 + inner x)
    else if x ∈ constants then 0
    else rank x * (top + 2) + 1, ?_⟩
  have bound : ∀ x ∈ news.flatMap presentOutputs, inner x ≤ top :=
    fun x hx => htop _ (List.mem_map.2 ⟨x, hx, rfl⟩)
  have spread : ∀ {a b : Nat}, a < b → a * (top + 2) + (top + 2) ≤ b * (top + 2) := by
    intro a b hlt
    rw [← Nat.succ_mul]
    exact Nat.mul_le_mul_right _ hlt
  intro m hm x hx y hy
  dsimp only
  have hm' : m ∈ news ∨ m ∈ done ++ rest := by
    simp only [List.mem_append] at hm ⊢
    exact or_assoc.1 hm |>.elim (fun h => Or.inr (Or.inl h)) (Or.imp id Or.inr)
  rcases hm' with hm | hm
  · rw [if_pos (List.mem_flatMap.2 ⟨m, hm, hy⟩)]
    by_cases hxout : x ∈ news.flatMap presentOutputs
    · rw [if_pos hxout]
      have := ranks' m hm x hx y hy
      omega
    · rw [if_neg hxout]
      by_cases hxconst : x ∈ constants
      · rw [if_pos hxconst]
        omega
      · rw [if_neg hxconst]
        have hxn := ((reads m hm x hx).resolve_left hxconst).resolve_left hxout
        have := Nat.mul_le_mul_right (top + 2) (lower _ (List.mem_map.2 ⟨x, hxn, rfl⟩))
        omega
  · obtain ⟨hyconst, hyout⟩ := others m hm y hy
    have hlt := ranks m (hsame m hm) x hx y hy
    rw [if_neg hyout, if_neg hyconst]
    by_cases hxout : x ∈ news.flatMap presentOutputs
    · rw [if_pos hxout]
      have := upper _ (List.mem_map.2 ⟨x, hidden m hm x hx hxout, rfl⟩)
      have := spread (Nat.lt_of_le_of_lt this hlt)
      have := bound x hxout
      omega
    · rw [if_neg hxout]
      have := spread hlt
      split <;> omega

/-- Whether nodes and initializers can take the place of a node. -/
structure Expands (n : Node) (news : List Node) (values : List Initializer) : Prop where
  made : ∀ x, (values.map Initializer.name).count x + (news.flatMap presentOutputs).count x +
    (news.flatMap Node.innerNames).count x ≤ n.presentOutputs.count x + n.innerNames.count x
  keeps : ∀ x ∈ n.presentOutputs,
    x ∈ values.map Initializer.name ∨ x ∈ news.flatMap presentOutputs
  reads : ∀ m ∈ news, ∀ x ∈ m.reads, x ∈ values.map Initializer.name ∨
    x ∈ news.flatMap presentOutputs ∨ x ∈ n.reads
  acyclic : Acyclic news

/-- What takes the place of a node makes its outputs and names of its nested graphs. -/
theorem Expands.mem_made {n : Node} {news : List Node} {values : List Initializer}
    (e : n.Expands news values) {x : String}
    (hx : x ∈ values.map Initializer.name ∨ x ∈ news.flatMap presentOutputs) :
    x ∈ n.presentOutputs ∨ x ∈ n.innerNames := by
  have le := e.made x
  rw [← List.count_pos_iff, ← List.count_pos_iff] at hx ⊢
  omega

end Node

/-! ## Replaced nodes -/

namespace Graph

variable {g : Graph}

/-- The graph in which nodes and initializers take the place of a node. -/
def expand (g : Graph) (done news rest : List Node) (values : List Initializer) : Graph :=
  { g with
    nodes := done ++ news ++ rest
    initializers := addInitializers g.initializers values }

theorem mem_nodes_expand {done news rest : List Node} {values : List Initializer} {m : Node} :
    m ∈ (g.expand done news rest values).nodes ↔ m ∈ news ∨ m ∈ done ++ rest := by
  unfold expand
  simp only [List.mem_append]
  tauto

section

variable {done rest news : List Node} {n : Node} {values : List Initializer}

theorem mem_of_expand (hnodes : g.nodes = done ++ n :: rest) {m : Node} (hm : m ∈ done ++ rest) :
    m ∈ g.nodes := by
  rw [hnodes]
  rcases List.mem_append.1 hm with hm | hm
  · exact List.mem_append_left _ hm
  · exact List.mem_append_right _ (List.mem_cons_of_mem _ hm)

/-- A graph in which a node was replaced is smaller. -/
theorem expand_reduces (separate : g.Separate) (hnodes : g.nodes = done ++ n :: rest)
    (e : n.Expands news values) : g.Reduces (g.expand done news rest values) := by
  have hcount := count_addInitializers_le g.initializers values
  have hmem := fun x => @mem_names_addInitializers g.initializers values x
  unfold expand
  generalize addInitializers g.initializers values = is at hcount hmem
  have hn : n ∈ g.nodes := by simp [hnodes]
  have hproduced : g.produced = done.flatMap Node.presentOutputs ++
      (n.presentOutputs ++ rest.flatMap Node.presentOutputs) := by
    simp [produced, hnodes]
  have hinner : g.innerNames = done.flatMap Node.innerNames ++
      (n.innerNames ++ rest.flatMap Node.innerNames) := by
    simp [innerNames, hnodes]
  refine Reduces.of_parts (fun x => ?_) (fun x hx => ?_) (fun x hx => ?_) fun m hm x hx => ?_
  · have := e.made x
    rw [count_made, hproduced, hinner]
    simp only [List.flatMap_append, List.count_append]
    have : (is.map Initializer.name).count x ≤
      g.initializerNames.count x + (values.map Initializer.name).count x := hcount x
    omega
  · refine (hmem x).trans (or_iff_left fun hv => ?_)
    refine separate.inputs x hx (List.mem_append.2 ?_)
    exact (e.mem_made (Or.inl hv)).imp (fun h => mem_produced.2 ⟨n, hn, h⟩)
      fun h => mem_innerNames.2 ⟨n, hn, h⟩
  · rcases hx with hx | hx
    · exact Or.inl ((hmem x).2 (Or.inl hx))
    · rw [hproduced, List.mem_append, List.mem_append] at hx
      rcases hx with hx | hx | hx
      · exact Or.inr (by simp only [List.flatMap_append, List.mem_append]; tauto)
      · rcases e.keeps x hx with h | h
        · exact Or.inl ((hmem x).2 (Or.inr h))
        · exact Or.inr (by simp only [List.flatMap_append, List.mem_append]; tauto)
      · exact Or.inr (by simp only [List.flatMap_append, List.mem_append]; tauto)
  · rcases mem_nodes_expand.1 (show m ∈ (g.expand done news rest values).nodes from hm) with hm | hm
    · rcases e.reads m hm x hx with h | h | h
      · exact Or.inl ((hmem x).2 (Or.inr h))
      · exact Or.inr (Or.inl (by simp only [List.flatMap_append, List.mem_append]; tauto))
      · exact Or.inr (Or.inr ⟨n, hn, h⟩)
    · exact Or.inr (Or.inr ⟨m, mem_of_expand hnodes hm, hx⟩)

/-- A graph in which a node was replaced has no cycle. -/
theorem expand_acyclic (separate : g.Separate) (acyclic : Node.Acyclic g.nodes)
    (hnodes : g.nodes = done ++ n :: rest) (e : n.Expands news values) :
    Node.Acyclic (g.expand done news rest values).nodes := by
  have hn : n ∈ g.nodes := by simp [hnodes]
  have hinside : ∀ {x}, x ∈ n.innerNames → x ∈ g.innerNames :=
    fun h => mem_innerNames.2 ⟨n, hn, h⟩
  rw [hnodes] at acyclic
  refine acyclic.expand e.acyclic e.reads ?_ ?_
  · intro m hm x hx hout
    refine (e.mem_made (Or.inr hout)).resolve_right fun hi => ?_
    exact separate.visible_not_mem_innerNames (reads_subset (mem_of_expand hnodes hm) hx)
      (hinside hi)
  · intro m hm y hy
    have hno : ¬ (y ∈ n.presentOutputs ∨ y ∈ n.innerNames) := by
      rintro (h | h)
      · have le := separate.count_made_le y
        have pos := List.count_pos_iff.2 h
        have pos' : 0 < (done.flatMap Node.presentOutputs).count y +
            (rest.flatMap Node.presentOutputs).count y := by
          rw [← List.count_append, ← List.flatMap_append]
          exact List.count_pos_iff.2 (List.mem_flatMap.2 ⟨m, hm, hy⟩)
        rw [count_made, produced, hnodes] at le
        simp only [List.flatMap_append, List.flatMap_cons, List.count_append] at le
        omega
      · refine separate.not_mem_innerNames (mem_definedNames.2 (Or.inr (Or.inr ?_))) (hinside h)
        exact mem_produced.2 ⟨m, mem_of_expand hnodes hm, hy⟩
    exact ⟨fun h => hno (e.mem_made (Or.inl h)), fun h => hno (e.mem_made (Or.inr h))⟩

theorem expand_sound (sound : g.Sound) (hnodes : g.nodes = done ++ n :: rest)
    (e : n.Expands news values) (regular : ∀ m ∈ news, m.DeepRegular)
    (storable : ∀ v ∈ values, v.Storable) : (g.expand done news rest values).Sound := by
  refine sound_iff.2 ⟨sound.separate.reduce (expand_reduces sound.separate hnodes e), ?_,
    expand_acyclic sound.separate sound.acyclic hnodes e, ?_⟩
  · intro m hm
    rcases mem_nodes_expand.1 hm with hm | hm
    · exact regular m hm
    · exact sound.deepRegular (mem_of_expand hnodes hm)
  · refine ⟨sound.storable.unknown, fun i hi => ?_, sound.storable.inputs, sound.storable.outputs,
      sound.storable.valueInfo⟩
    exact (mem_addInitializers hi).elim (sound.storable.initializers i) (storable i)

end

end Graph
end TensorGraph
