import TensorGraph.Proofs.Simplification.Introduce

/-!
# Sweeps

Input:

* a sound graph whose nodes are in order, and rules.

Algorithm:

* `sweepFrom` offers each node to the rules and makes the first change that can be made;
* `Graph.mergeInitializers` lets the readers of an initializer read an equal one.

The invariant of a sweep is `Graph.Continues`: the graph is sound and in order, all its names are
taken, and it can stand for the graph that the sweep began with.

Main result:

* `Graph.applyRules_sound`: afterwards the graph is sound, and its nodes can be ordered.  It was
  reduced if no rule makes new names.
-/

namespace TensorGraph

/-- Whether a graph in the middle of a sweep is sound, in order, and made from the first one when some
names are taken. -/
structure Graph.Continues (closed : Prop) (g : Graph) (taken : List String) (g' : Graph) : Prop where
  sound : g'.Sound
  refines : g.Refines g'
  layout : ∃ rank, Node.Layout rank g'.nodes
  covered : g'.Covered taken
  reduces : closed → g.Reduces g'

namespace Graph.Continues

variable {closed : Prop} {g g' g'' : Graph} {taken taken' : List String}

theorem mono (h : g.Continues closed taken g') (sub : ∀ x ∈ taken, x ∈ taken') :
    g.Continues closed taken' g' :=
  ⟨h.sound, h.refines, h.layout, h.covered.mono sub, h.reduces⟩

/-- A graph that was made smaller continues a sweep. -/
theorem reduce (h : g.Continues closed taken g') (sound : g''.Sound) (reduces : g'.Reduces g'')
    (layout : ∃ rank, Node.Layout rank g''.nodes) : g.Continues closed taken g'' :=
  ⟨sound, h.refines.trans reduces.refines, layout, h.covered.reduce reduces,
    fun hc => (h.reduces hc).trans reduces⟩

end Graph.Continues

/-! ## Proposals -/

section

variable {v : View} {rank : String → Nat} {n : Node} {index : Nat} {taken : List String}

/-- Names that are taken stay taken. -/
theorem Rule.subset_propose (r : Rule) {x : String} (hx : x ∈ taken) :
    x ∈ (r.propose v taken index n).1 := by
  cases r with
  | fuseNormalizationIntoConv => exact v.subset_fuseNormalizationIntoConv n hx
  | _ => exact hx

theorem subset_firstProposal {rules : List Rule} {x : String} (hx : x ∈ taken) :
    x ∈ (firstProposal v index n rules taken).1 := by
  induction rules generalizing taken with
  | nil => exact hx
  | cons rule rest ih =>
      have kept : x ∈ (rule.propose v taken index n).1 := rule.subset_propose hx
      unfold firstProposal
      split
      · rename_i taken' change hpropose
        rw [hpropose] at kept
        split
        · exact kept
        · exact ih kept
      · rename_i taken' hpropose
        rw [hpropose] at kept
        exact ih kept

/-- The first proposal of rules was made by one of them when perhaps more names were taken, and can be
followed. -/
theorem firstProposal_eq_some {rules : List Rule} {p : Proposal}
    (h : (firstProposal v index n rules taken).2 = some p) :
    p.change.isApplicable v index = true ∧ p.rule ∈ rules ∧ ∃ taken', (∀ x ∈ taken, x ∈ taken') ∧
      p.rule.propose v taken' index n =
        ((firstProposal v index n rules taken).1, some p.change) := by
  induction rules generalizing taken with
  | nil => cases h
  | cons rule rest ih =>
      have kept : ∀ x ∈ taken, x ∈ (rule.propose v taken index n).1 :=
        fun x hx => rule.subset_propose hx
      -- what the other rules propose when more names are taken
      have later : ∀ taken', (∀ x ∈ taken, x ∈ taken') →
          (firstProposal v index n rest taken').2 = some p →
          p.change.isApplicable v index = true ∧ p.rule ∈ rule :: rest ∧
            ∃ taken'', (∀ x ∈ taken, x ∈ taken'') ∧ p.rule.propose v taken'' index n =
              ((firstProposal v index n rest taken').1, some p.change) := by
        intro taken' sub h
        obtain ⟨applicable, mem, taken'', sub', made⟩ := ih h
        exact ⟨applicable, List.mem_cons_of_mem _ mem, taken'', fun x hx => sub' x (sub x hx), made⟩
      unfold firstProposal at h ⊢
      split at h
      · rename_i taken' change hpropose
        rw [hpropose] at kept
        split at h
        · rename_i happlicable
          cases h
          exact ⟨happlicable, List.mem_cons_self, taken, fun _ hx => hx, by rw [hpropose, if_pos happlicable]⟩
        · rename_i happlicable
          rw [if_neg happlicable]
          exact later taken' kept h
      · rename_i taken' hpropose
        rw [hpropose] at kept
        exact later taken' kept h

/-- The first proposal of rules is admissible, or introduces new constants. -/
theorem firstProposal_spec (sound : v.graph.Sound) (layout : Node.Layout rank v.graph.nodes)
    (zero : ∀ x, x ∉ v.graph.produced → rank x = 0) (hn : v.graph.nodes[index]? = some n)
    (constants : v.surroundings.constants.Storable) (covered : v.graph.Covered taken)
    {rules : List Rule} {p : Proposal}
    (h : (firstProposal v index n rules taken).2 = some p) :
    p.change.isApplicable v index = true ∧
      (p.change.Admissible v.graph rank n ∨ Rule.fuseNormalizationIntoConv ∈ rules ∧
        p.change.Introduces v.graph rank n taken (firstProposal v index n rules taken).1) := by
  obtain ⟨applicable, mem, taken', sub, made⟩ := firstProposal_eq_some h
  have hchange : (p.rule.propose v taken' index n).2 = some p.change := by rw [made]
  refine ⟨applicable, ?_⟩
  by_cases hrule : p.rule = .fuseNormalizationIntoConv
  · rw [hrule] at hchange mem made
    have introduces := v.fuseNormalizationIntoConv_introduces sound layout zero hn constants
      (covered.mono sub) hchange
    rw [show v.fuseNormalizationIntoConv taken' n = _ from made] at introduces
    exact Or.inr ⟨mem, introduces.mono sub⟩
  · exact Or.inl (Rule.propose_admissible sound layout hn hrule hchange)

end

/-- Whether proposals keep names taken, and are admissible or introduce new constants.  When no names
are made, they are admissible. -/
def Proposer.Admissible (closed : Prop) (propose : Proposer) : Prop :=
  ∀ (g : Graph) (rank : String → Nat) (n : Node) (index : Nat) (taken : List String),
    g.Sound → Node.Layout rank g.nodes → (∀ x, x ∉ g.produced → rank x = 0) →
    g.nodes[index]? = some n → g.Covered taken →
    (∀ x ∈ taken, x ∈ (propose g index n taken).1) ∧
      ∀ p, (propose g index n taken).2 = some p →
        (p.change.Admissible g rank n ∧ ∃ version facts surroundings,
          p.change.isApplicable { version, graph := g, facts, surroundings } index = true) ∨
        ¬closed ∧ p.change.Introduces g rank n taken (propose g index n taken).1

/-! ## Sweeps -/

/-- What holds of the taken names and the graph, and is kept when a node is offered and when a change
that is proposed for it is made, holds after a sweep. -/
theorem sweepFrom_induct {Q : List String → Graph → Prop} (propose : Proposer) (path : String)
    (index : Nat)
    (offer : ∀ g n index taken, Q taken g → g.nodes[index]? = some n →
      Q (propose g index n taken).1 g)
    (change : ∀ g g' n index taken p count, Q taken g → g.nodes[index]? = some n →
      (propose g index n taken).2 = some p → p.change.apply g index = .ok (g', count) →
      Q (propose g index n taken).1 g')
    {s : SweepState} (h : Q s.taken s.graph) :
    Q (sweepFrom propose path index s).taken (sweepFrom propose path index s).graph := by
  fun_induction sweepFrom propose path index s with
  | case1 index s hi n taken hpropose ih =>
      have := offer s.graph n index s.taken h (List.getElem?_eq_getElem hi)
      rw [hpropose] at this
      exact ih this
  | case2 index s hi n taken p hpropose s' g' count happlied ih =>
      have := change s.graph g' n index s.taken p count h (List.getElem?_eq_getElem hi)
        (by rw [hpropose]) happlied
      rw [hpropose] at this
      exact ih this
  | case3 index s hi n taken p hpropose s' m happlied ih =>
      have := offer s.graph n index s.taken h (List.getElem?_eq_getElem hi)
      rw [hpropose] at this
      exact ih this
  | case4 index s hi => exact h

/-- A sweep keeps what one change keeps. -/
theorem sweepFrom_continues {closed : Prop} {g : Graph} {propose : Proposer}
    (admissible : propose.Admissible closed) {path : String} {index : Nat} {s : SweepState}
    (h : g.Continues closed s.taken s.graph) :
    g.Continues closed (sweepFrom propose path index s).taken
      (sweepFrom propose path index s).graph := by
  refine sweepFrom_induct (Q := g.Continues closed) propose path index
    (fun g' n index taken h hn => ?_)
    (fun g' g'' n index taken p count h hn hp happlied => ?_) h
  · obtain ⟨rank, layout⟩ := h.layout
    obtain ⟨rank, layout, zero⟩ := layout.exists_zero
    exact h.mono (admissible g' rank n index taken h.sound layout zero hn h.covered).1
  · obtain ⟨rank, layout⟩ := h.layout
    obtain ⟨rank, layout, zero⟩ := layout.exists_zero
    obtain ⟨kept, made⟩ := admissible g' rank n index taken h.sound layout zero hn h.covered
    rcases made p hp with ⟨hadm, version, facts, surroundings, happ⟩ | ⟨hopen, introduces⟩
    · obtain ⟨sound, reduces, layout'⟩ := Change.apply_sound h.sound layout hn hadm happ happlied
      exact (h.mono kept).reduce sound reduces layout'
    · obtain ⟨sound, refines, covered, layout'⟩ :=
        Change.introduce_sound h.sound layout hn h.covered kept introduces happlied
      exact ⟨sound, h.refines.trans refines, layout', covered, fun hc => absurd hc hopen⟩

/-! ## Equal initializers -/

namespace InitializerClasses

/-- The initializers that were compared so far, by what they became. -/
structure Compared (g : Graph) (done : List Initializer) (s : InitializerClasses) : Prop where
  names : ∀ x, (s.kept.map Initializer.name).count x + (s.duplicates.map Prod.fst).count x ≤
    (done.map Initializer.name).count x
  kept : ∀ p ∈ s.duplicates, p.2 ∈ s.kept.map Initializer.name
  inner : ∀ p ∈ s.duplicates, p.1 ∉ g.inputNames ∧ p.1 ∉ g.outputNames

theorem Compared.add {g : Graph} {done : List Initializer} {s : InitializerClasses}
    (h : Compared g done s) (i : Initializer) : Compared g (done ++ [i]) (add g s i) := by
  have grow : ∀ x, (done.map Initializer.name).count x ≤
      ((done ++ [i]).map Initializer.name).count x := by
    intro x
    simp
  unfold InitializerClasses.add
  split
  · exact ⟨fun x => Nat.le_trans (h.names x) (grow x), h.kept, h.inner⟩
  · rename_i hin
    split
    · refine ⟨fun x => ?_, ?_, h.inner⟩
      · have := h.names x
        simp only [List.map_append, List.map_cons, List.map_nil, List.count_append]
        omega
      · intro p hp
        simpa using Or.inl (List.mem_map.1 (h.kept p hp))
    · rename_i other hfind
      split
      · exact ⟨fun x => Nat.le_trans (h.names x) (grow x), h.kept, h.inner⟩
      · rename_i hout
        refine ⟨fun x => ?_, ?_, ?_⟩
        · have := h.names x
          simp only [List.map_append, List.map_cons, List.map_nil, List.count_append]
          omega
        · intro p hp
          rcases List.mem_append.1 hp with hp | hp
          · exact h.kept p hp
          · cases List.mem_singleton.1 hp
            exact List.mem_map.2 ⟨other, List.mem_of_find?_eq_some hfind, rfl⟩
        · intro p hp
          rcases List.mem_append.1 hp with hp | hp
          · exact h.inner p hp
          · cases List.mem_singleton.1 hp
            exact ⟨fun hmem => hin (Graph.isInput_iff.2 hmem),
              fun hmem => hout (Graph.isOutput_iff.2 hmem)⟩

theorem compared_foldl {g : Graph} {done todo : List Initializer} {s : InitializerClasses}
    (h : Compared g done s) : Compared g (done ++ todo) (todo.foldl (InitializerClasses.add g) s) := by
  induction todo generalizing done s with
  | nil => simpa using h
  | cons i rest ih => simpa using ih (h.add i)

end InitializerClasses

namespace Graph

theorem foldl_replaceUses_with_initializers (pairs : List (String × String)) (g : Graph)
    (initializers : List Initializer) :
    pairs.foldl (fun g (old, new) => g.replaceUses old new) { g with initializers := initializers } =
      { pairs.foldl (fun g (old, new) => g.replaceUses old new) g with
        initializers := initializers } := by
  induction pairs generalizing g with
  | nil => rfl
  | cons p rest ih =>
      obtain ⟨old, new⟩ := p
      rw [List.foldl_cons, List.foldl_cons, ← ih]
      simp only [replaceUses_eq]

theorem initializers_foldl_replaceUses (pairs : List (String × String)) (g : Graph) :
    (pairs.foldl (fun g (old, new) => g.replaceUses old new) g).initializers = g.initializers := by
  induction pairs generalizing g with
  | nil => rfl
  | cons p rest ih =>
      obtain ⟨old, new⟩ := p
      rw [List.foldl_cons, ih]
      simp only [replaceUses_eq]

theorem compared_initializers (g : Graph) :
    InitializerClasses.Compared g g.initializers
      (g.initializers.foldl (InitializerClasses.add g) {}) := by
  have start : InitializerClasses.Compared g [] {} := ⟨by simp, by simp, by simp⟩
  exact InitializerClasses.compared_foldl start

/-- The initializers that are removed, and those that stand for them. -/
theorem duplicateInitializers_spec {g : Graph} (unique : g.Unique) :
    (∀ x, (g.duplicateInitializers.map Prod.fst).count x ≤ g.initializerNames.count x) ∧
      ∀ p ∈ g.duplicateInitializers, p.1 ∈ g.initializerNames ∧ p.2 ∈ g.initializerNames ∧
        p.1 ∉ g.inputNames ∧ p.1 ∉ g.outputNames ∧ p.2 ∉ g.duplicateInitializers.map Prod.fst := by
  obtain ⟨names, kept, inner⟩ := compared_initializers g
  have one : ∀ x, g.initializerNames.count x ≤ 1 := by
    intro x
    have := unique.count_made_le x
    rw [count_made] at this
    omega
  unfold initializerNames at one ⊢
  unfold duplicateInitializers
  refine ⟨fun x => ?_, fun p hp => ?_⟩
  · have := names x
    omega
  · have hkept := kept p hp
    have hcount := names p.2
    have hcount' := names p.1
    have := one p.2
    have pos := List.count_pos_iff.2 hkept
    have pos' := List.count_pos_iff.2 (List.mem_map.2 ⟨p, hp, rfl⟩ :
      p.1 ∈ (g.initializers.foldl (InitializerClasses.add g) {}).duplicates.map Prod.fst)
    refine ⟨List.count_pos_iff.1 (by omega), List.count_pos_iff.1 (by omega), (inner p hp).1,
      (inner p hp).2, fun hmem => ?_⟩
    have := List.count_pos_iff.2 hmem
    omega

/-- A graph without the initializers that have some names. -/
def withoutInitializers (g : Graph) (removed : List String) : Graph :=
  { g with initializers := g.initializers.filter fun i => !removed.contains i.name }

theorem mem_initializers_withoutInitializers {g : Graph} {removed : List String} {i : Initializer} :
    i ∈ (g.withoutInitializers removed).initializers ↔ i ∈ g.initializers ∧ i.name ∉ removed := by
  simp [withoutInitializers]

theorem initializerNames_withoutInitializers (g : Graph) (removed : List String) :
    (g.withoutInitializers removed).initializerNames =
      g.initializerNames.filter fun x => !removed.contains x := by
  unfold initializerNames withoutInitializers
  rw [List.filter_map]
  rfl

theorem mem_initializerNames_withoutInitializers {g : Graph} {removed : List String} {x : String} :
    x ∈ (g.withoutInitializers removed).initializerNames ↔
      x ∈ g.initializerNames ∧ x ∉ removed := by
  rw [initializerNames_withoutInitializers, List.mem_filter, Bool.not_eq_true',
    List.contains_eq_mem, decide_eq_false_iff_not]

/-- Right after the initializers that are equal to other ones were removed. -/
theorem pending_mergeInitializers {g : Graph} (unique : g.Unique)
    (named : ∀ x ∈ g.initializerNames, x ≠ "") :
    Pending g.captures g (g.withoutInitializers (g.duplicateInitializers.map Prod.fst))
      g.duplicateInitializers := by
  obtain ⟨counts, spec⟩ := duplicateInitializers_spec unique
  have defined : ∀ x ∈ g.initializerNames, x ∈ g.definedNames := fun x hx =>
    mem_definedNames.2 (Or.inr (Or.inl hx))
  constructor
  case inputs => rfl
  case outputs => rfl
  case defaults =>
    intro x hx
    rw [mem_initializerNames_withoutInitializers]
    refine ⟨fun h => h.1, fun h => ⟨h, fun hr => ?_⟩⟩
    obtain ⟨p, hp, rfl⟩ := List.mem_map.1 hr
    exact (spec p hp).2.2.1 hx
  case made =>
    intro x
    have hcounts := counts x
    rw [count_made, count_made, initializerNames_withoutInitializers]
    show _ + g.produced.count x + g.innerNames.count x + _ ≤ _
    by_cases hx : x ∈ g.duplicateInitializers.map Prod.fst
    · have hzero : (g.initializerNames.filter fun x =>
          !(g.duplicateInitializers.map Prod.fst).contains x).count x = 0 := by
        rw [List.count_eq_zero, List.mem_filter]
        rintro ⟨-, h⟩
        simp [hx] at h
      omega
    · have hle := (List.filter_sublist (p := fun x =>
        !(g.duplicateInitializers.map Prod.fst).contains x) (l := g.initializerNames)).count_le x
      have hzero := List.count_eq_zero.2 hx
      omega
  case inner => exact fun x hx => hx
  case captures =>
    intro x hx
    obtain ⟨hx, hx'⟩ := mem_captures.1 hx
    by_cases hr : x ∈ g.duplicateInitializers.map Prod.fst
    · exact Or.inr hr
    · refine Or.inl (mem_captures.2 ⟨hx, fun hd => hx' ?_⟩)
      rcases mem_definedNames.1 hd with hd | hd | hd
      · exact mem_definedNames.2 (Or.inl hd)
      · exact mem_definedNames.2 (Or.inr (Or.inl
          (mem_initializerNames_withoutInitializers.2 ⟨hd, hr⟩)))
      · exact mem_definedNames.2 (Or.inr (Or.inr hd))
  case named => exact fun p hp => ⟨named p.1 (spec p hp).1, named p.2 (spec p hp).2.1⟩
  case apart =>
    exact fun p hp => ⟨unique.not_mem_innerNames (defined p.1 (spec p hp).1),
      unique.not_mem_innerNames (defined p.2 (spec p hp).2.1)⟩
  case visible =>
    intro p hp
    exact Or.inl (mem_definedNames.2 (Or.inr (Or.inl
      (mem_initializerNames_withoutInitializers.2 ⟨(spec p hp).2.1, (spec p hp).2.2.2.2⟩))))
  case foreign => exact fun p hp => (spec p hp).2.2.2.2
  case renamable => exact fun p hp ho => absurd ho (spec p hp).2.2.2.1
  case distinctTargets =>
    rintro ⟨p, hp, ho⟩
    exact absurd ho (spec p hp).2.2.2.1

/-- The graph without equal initializers is as regular as before, and in order. -/
theorem tidy_mergeInitializers {g : Graph} (sound : g.Sound)
    (layout : ∃ rank, Node.Layout rank g.nodes) :
    Tidy (g.withoutInitializers (g.duplicateInitializers.map Prod.fst))
      g.duplicateInitializers := by
  obtain ⟨nodes, -, storable⟩ := everywhere_regular_iff.1 sound.regular
  obtain ⟨-, spec⟩ := duplicateInitializers_spec sound.separate.unique
  refine ⟨nodes, ?_, ?_⟩
  · exact ⟨storable.unknown, fun i hi => storable.initializers i (List.mem_filter.1 hi).1,
      storable.inputs, storable.outputs, storable.valueInfo⟩
  · obtain ⟨rank, layout⟩ := layout
    obtain ⟨rank', layout', zero⟩ := layout.exists_zero
    refine ⟨rank', layout', fun p hp => ?_⟩
    have : rank' p.2 = 0 := zero p.2 fun hprod =>
      sound.separate.produced_not_mem_initializerNames hprod (spec p hp).2.1
    omega

/-- Pairs whose first values are no outputs are all redirected. -/
theorem foldl_replaceUses_eq {pairs : List (String × String)} {h : Graph}
    (no : ∀ p ∈ pairs, p.1 ∉ h.outputNames) :
    pairs.foldl (fun g (old, new) => g.replaceUses old new) h = pairs.foldl forwardValue h := by
  induction pairs generalizing h with
  | nil => rfl
  | cons pair rest ih =>
      have first : h.forwardValue pair = h.replaceUses pair.1 pair.2 := by
        unfold forwardValue
        exact if_neg fun ho => no pair List.mem_cons_self (isOutput_iff.1 ho)
      have outputs : (h.replaceUses pair.1 pair.2).outputNames = h.outputNames := by
        rw [replaceUses_eq]
        rfl
      rw [List.foldl_cons, List.foldl_cons, first]
      refine ih fun p hp => ?_
      rw [outputs]
      exact no p (List.mem_cons_of_mem _ hp)

/-- Merging equal initializers forwards the pairs of them, once the first ones are removed. -/
theorem mergeInitializers_eq {g : Graph} (unique : g.Unique) :
    g.mergeInitializers.1 =
      g.duplicateInitializers.foldl forwardValue
        (g.withoutInitializers (g.duplicateInitializers.map Prod.fst)) := by
  have same := foldl_replaceUses_with_initializers g.duplicateInitializers g
    (g.initializers.filter fun i => !(g.duplicateInitializers.map Prod.fst).contains i.name)
  unfold withoutInitializers
  rw [← foldl_replaceUses_eq, same]
  · unfold Graph.mergeInitializers
    simp only [initializers_foldl_replaceUses]
  · exact fun p hp => ((duplicateInitializers_spec unique).2 p hp).2.2.2.1

/-- Initializers of a sound graph have names. -/
theorem Sound.initializer_ne_empty {g : Graph} (sound : g.Sound) {x : String}
    (hx : x ∈ g.initializerNames) : x ≠ "" := by
  obtain ⟨-, -, storable⟩ := everywhere_regular_iff.1 sound.regular
  obtain ⟨i, hi, rfl⟩ := List.mem_map.1 hx
  exact (storable.initializers i hi).name

/-- Merging equal initializers keeps a graph sound and in order. -/
theorem Continues.mergeInitializers {closed : Prop} {g h : Graph} {taken : List String}
    (c : g.Continues closed taken h) : g.Continues closed taken h.mergeInitializers.1 := by
  obtain ⟨last, tidy⟩ := Pending.foldl c.sound.separate.unique
    (fun _ _ _ _ p forwarded t => t.forwarded c.sound.separate.unique p forwarded)
    (pending_mergeInitializers c.sound.separate.unique fun _ => c.sound.initializer_ne_empty)
    (tidy_mergeInitializers c.sound c.layout)
  obtain ⟨sound, reduces, layout⟩ := tidy.sound last c.sound
  rw [mergeInitializers_eq c.sound.separate.unique]
  exact c.reduce sound reduces layout

/-! ## All rules -/

/-- Applying rules keeps a graph sound and in order, and reduces it if they make no new names. -/
theorem applyRules_sound {g : Graph} (sound : g.Sound) (sorted : Node.Sorted g.nodes)
    (rules : List Rule) (version : Option Int64) (facts : Scope Facts)
    {surroundings : Surroundings} (constants : surroundings.constants.Storable) (path : String) :
    ∃ taken, g.Continues (Rule.fuseNormalizationIntoConv ∉ rules) taken
      (g.applyRules version rules facts surroundings path).1 := by
  obtain ⟨rank, layout, -⟩ := sorted.exists_layout sound.separate.distinct
  have start : g.Continues (Rule.fuseNormalizationIntoConv ∉ rules)
      (surroundings.names ++ g.allNames) g :=
    ⟨sound, .refl g, ⟨rank, layout⟩,
      g.covered_allNames.mono fun x hx => List.mem_append_right _ hx, fun _ => .refl g⟩
  have admissible : Proposer.Admissible (Rule.fuseNormalizationIntoConv ∉ rules)
      fun g index n taken =>
        firstProposal { version, graph := g, facts, surroundings } index n rules taken := by
    intro h rank n index taken sound layout zero hn covered
    refine ⟨fun x hx => subset_firstProposal hx, fun p hp => ?_⟩
    obtain ⟨happ, made⟩ := firstProposal_spec
      (v := { version, graph := h, facts, surroundings }) sound layout zero hn constants covered hp
    rcases made with hadm | ⟨hmem, introduces⟩
    · exact Or.inl ⟨hadm, version, facts, surroundings, happ⟩
    · exact Or.inr ⟨fun hc => hc hmem, introduces⟩
  have swept := @sweepFrom_continues _ g _ admissible path 0
    { graph := g, taken := surroundings.names ++ g.allNames } start
  unfold applyRules
  simp only
  split
  · exact ⟨_, swept.mergeInitializers⟩
  · exact ⟨_, swept⟩

end Graph

end TensorGraph
