import Mathlib.Data.List.Flatten
import TensorGraph.Proofs.Simplification.Forward
import TensorGraph.Proofs.Simplification.Proposal
import TensorGraph.Simplification.Sweep

/-!
# What rules propose

Input:

* a rule that makes no new names, and a node of a sound graph whose nodes are in order.

A change is admissible when it forwards pairs that may be forwarded, or puts a single node without
new initializers in place of the node.  Such a node produces nothing else, and reads visible values
that come before what it produces (`Graph.Replaces`).

Main results:

* `Graph.replaceNode_sound`: when a node is replaced, the graph stays sound and in order, and is
  reduced;
* `Change.apply_sound`: an admissible change keeps the graph sound and in order, and reduces it;
* `Rule.propose_admissible`: each rule but one proposes admissible changes only.
-/

namespace TensorGraph

/-! ## Replacing a node -/

namespace Graph

/-- A node that may take the place of another one. -/
structure Replaces (g : Graph) (rank : String → Nat) (n m : Node) : Prop where
  deepRegular : m.DeepRegular
  outputs : ∀ x, m.presentOutputs.count x ≤ n.presentOutputs.count x
  inner : ∀ x, m.innerNames.count x ≤ n.innerNames.count x
  visible : ∀ x ∈ m.reads, x ∈ g.definedNames ∨ x ∈ g.captures
  lower : ∀ x ∈ m.reads, ∀ y ∈ m.presentOutputs, rank x < rank y

variable {g g' : Graph} {rank : String → Nat} {n m : Node} {index : Nat}

/-- Replacing a node by one that produces no more keeps a graph sound and in order. -/
theorem replaceNode_sound (sound : g.Sound) (layout : Node.Layout rank g.nodes)
    (hn : g.nodes[index]? = some n) (r : g.Replaces rank n m)
    (done : g.replaceNode index [m] = .ok g') :
    g'.Sound ∧ g.Reduces g' ∧ Node.Layout rank g'.nodes := by
  obtain ⟨rfl, safe⟩ := replaceNode_eq_ok hn done
  obtain ⟨before, after, hnodes, -, htake, hdrop⟩ := exists_split hn
  rw [htake, hdrop] at safe ⊢
  have hcount : ∀ (names : Node → List String) (x : String),
      (names m).count x ≤ (names n).count x →
      ((before ++ [m] ++ after).flatMap names).count x ≤ (g.nodes.flatMap names).count x := by
    intro names x le
    rw [hnodes]
    simp only [List.flatMap_append, List.flatMap_cons, List.flatMap_nil, List.count_append,
      List.append_nil]
    omega
  have hmem : ∀ k ∈ before ++ [m] ++ after, k = m ∨ k ∈ g.nodes := by
    intro k hk
    rw [hnodes]
    simp only [List.mem_append, List.mem_cons, List.not_mem_nil, or_false] at hk ⊢
    tauto
  have houtput : ∀ y ∈ m.presentOutputs, y ∈ n.presentOutputs := by
    intro y hy
    have pos := List.count_pos_iff.2 hy
    exact List.count_pos_iff.1 (Nat.lt_of_lt_of_le pos (r.outputs y))
  have hlost : ∀ x, x ∈ g.definedNames →
      x ∉ ({ g with nodes := before ++ [m] ++ after } : Graph).definedNames →
      x ∈ n.presentOutputs ∧ x ∉ m.presentOutputs := by
    intro x hx hx'
    rw [mem_definedNames, not_or, not_or] at hx'
    obtain ⟨hi, hj, hp⟩ := hx'
    rcases mem_definedNames.1 hx with hx | hx | hx
    · exact absurd hx hi
    · exact absurd hx hj
    · rw [mem_produced] at hx hp
      obtain ⟨k, hk, hkx⟩ := hx
      rw [hnodes] at hk
      refine ⟨?_, fun h => hp ⟨m, by simp, h⟩⟩
      rcases List.mem_append.1 hk with hk | hk
      · exact absurd ⟨k, by simp [hk], hkx⟩ hp
      · rcases List.mem_cons.1 hk with rfl | hk
        · exact hkx
        · exact absurd ⟨k, by simp [hk], hkx⟩ hp
  have reduces : g.Reduces { g with nodes := before ++ [m] ++ after } := by
    refine ⟨rfl, rfl, fun x => ?_, fun _ _ => Iff.rfl, fun x hx => ?_⟩
    · have h₁ := hcount Node.presentOutputs x (r.outputs x)
      have h₂ := hcount Node.innerNames x (r.inner x)
      rw [count_made, count_made]
      unfold produced innerNames initializerNames
      simp only
      omega
    · obtain ⟨hx, hx'⟩ := mem_captures.1 hx
      have huse : x ∈ ({ g with nodes := before ++ [m] ++ after } : Graph).uses := by
        unfold uses
        rcases hx with ⟨k, hk, hx⟩ | ho
        · exact List.mem_append_left _ (List.mem_flatMap.2 ⟨k, hk, hx⟩)
        · exact List.mem_append_right _ ho
      have hno : x ∉ g.definedNames := by
        intro hd
        obtain ⟨hlost, hkept⟩ := hlost x hd hx'
        refine ((safe x hlost).resolve_left ?_) huse
        simpa using hkept
      rcases hx with ⟨k, hk, hread⟩ | ho
      · rcases hmem k hk with rfl | hk
        · exact (r.visible x hread).resolve_left hno
        · exact mem_captures.2 ⟨Or.inl ⟨k, hk, hread⟩, hno⟩
      · exact mem_captures.2 ⟨Or.inr ho, hno⟩
  have layout' : Node.Layout rank (before ++ [m] ++ after) := by
    refine ⟨?_, ?_⟩
    · intro k hk x hx y hy
      rcases hmem k hk with rfl | hk
      · exact r.lower x hx y hy
      · exact layout.reads k hk x hx y hy
    · have order := layout.order
      rw [hnodes, List.pairwise_append, List.pairwise_cons] at order
      obtain ⟨first, ⟨self, last⟩, cross⟩ := order
      rw [List.append_assoc, List.pairwise_append, List.singleton_append, List.pairwise_cons]
      refine ⟨first, ⟨fun b hb y hy => self b hb y (houtput y hy), last⟩, ?_⟩
      intro a ha b hb y hy z hz
      rcases List.mem_cons.1 hb with rfl | hb
      · exact cross a ha n List.mem_cons_self y hy z (houtput z hz)
      · exact cross a ha b (List.mem_cons_of_mem _ hb) y hy z hz
  obtain ⟨nodes, -, storable⟩ := everywhere_regular_iff.1 sound.regular
  refine ⟨sound_iff.2 ⟨sound.separate.reduce reduces, ?_, layout'.acyclic, ?_⟩, reduces, layout'⟩
  · intro k hk
    rcases hmem k hk with rfl | hk
    · exact r.deepRegular
    · exact nodes k hk
  · exact ⟨storable.unknown, storable.initializers, storable.inputs, storable.outputs,
      storable.valueInfo⟩

end Graph

/-- Whether a change of a node keeps a graph sound. -/
def Change.Admissible (g : Graph) (rank : String → Nat) (n : Node) : Change → Prop
  | .forward pairs => g.Forwards rank n pairs
  | .replace nodes initializers => initializers = [] ∧ ∃ m, nodes = [m] ∧ g.Replaces rank n m

theorem Change.apply_sound {g g' : Graph} {rank : String → Nat} {n : Node} {index count : Nat}
    {change : Change} {version : Option Int64} {facts : Scope Facts}
    {surroundings : Surroundings} (sound : g.Sound) (layout : Node.Layout rank g.nodes)
    (hn : g.nodes[index]? = some n) (admissible : change.Admissible g rank n)
    (applicable : change.isApplicable { version, graph := g, facts, surroundings } index = true)
    (done : change.apply g index = .ok (g', count)) :
    g'.Sound ∧ g.Reduces g' ∧ ∃ rank, Node.Layout rank g'.nodes := by
  cases change with
  | forward pairs =>
      simp only [apply, Except.ok.injEq, Prod.mk.injEq] at done
      obtain ⟨rfl, -⟩ := done
      exact Graph.forwardNode_sound sound layout hn admissible applicable
  | replace nodes initializers =>
      obtain ⟨rfl, m, rfl, replaces⟩ := admissible
      cases hr : g.replaceNode index [m] with
      | error e => simp [apply, hr, bind, Except.bind] at done
      | ok h =>
          simp only [apply, hr, bind, Except.bind, pure, Except.pure, Except.ok.injEq,
            Prod.mk.injEq] at done
          obtain ⟨rfl, -⟩ := done
          obtain ⟨sound', reduces, layout'⟩ :=
            Graph.replaceNode_sound sound layout hn replaces hr
          exact ⟨sound', reduces, rank, layout'⟩

/-! ## Nodes with one output -/

namespace Node

/-- A node that is removed lists one output at most. -/
theorem Regular.drop_outputs {n : Node} (h : n.Regular) (hd : n.isDefaultDomain = true)
    (ho : n.opType ∈ singleOutputOperators) : n.outputs.drop 1 = [] :=
  List.drop_eq_nil_of_le (h.fits hd ho)

theorem eq_of_mem_presentOutputs {n : Node} {x y : String} (one : n.outputs.drop 1 = [])
    (hx : n.outputs.head? = some x) (hy : y ∈ n.presentOutputs) : y = x := by
  obtain ⟨hy, -⟩ := mem_presentOutputs.1 hy
  cases houts : n.outputs with
  | nil =>
      rw [houts] at hx
      cases hx
  | cons z rest =>
      rw [houts] at hx hy one
      cases hx
      rcases List.mem_cons.1 hy with rfl | hy
      · rfl
      · have : rest = [] := one
        rw [this] at hy
        cases hy

end Node

section

variable {v : View} {rank : String → Nat} {n : Node} {index : Nat} {change : Change}

/-- A node is in order after what it reads, and its first output may be forwarded. -/
theorem Graph.forwards_first {g : Graph} (sound : g.Sound) (layout : Node.Layout rank g.nodes)
    (hn : n ∈ g.nodes) {x y : String} (hy : n.firstOutput? = some y) (hx : x ≠ "")
    (feeds : g.Feeds x y) (others : ∀ o ∈ n.outputs.drop 1, o = "" ∨ o ∉ g.uses) :
    g.Forwards rank n [(y, x)] := by
  have hy' := Node.mem_presentOutputs_of_firstOutput? hy
  have foreign := feeds.foreign layout.reads sound.separate.distinct hn hy'
  constructor
  case sources => simpa using hy'
  case covered =>
    intro o ho
    obtain ⟨ho, hne⟩ := Node.mem_presentOutputs.1 ho
    cases houts : n.outputs with
    | nil =>
        rw [houts] at ho
        cases ho
    | cons z rest =>
        have hz := Node.head?_of_firstOutput? hy
        rw [houts] at ho hz others
        cases hz
        rcases List.mem_cons.1 ho with rfl | ho
        · exact Or.inl (by simp)
        · exact Or.inr ((others o ho).resolve_left hne)
  case distinctSources => simp
  case distinctTargets => simp
  case visible => simpa using feeds.visible
  case named => simpa using hx
  case foreign => simpa using foreign
  case lower => simpa using Nat.le_of_lt (feeds.rank_lt layout.reads)

/-- Forwarding the only output of a node. -/
theorem Graph.forwardTo_admissible {g : Graph} (sound : g.Sound)
    (layout : Node.Layout rank g.nodes) (hn : n ∈ g.nodes) {x : String} (hx : x ≠ "")
    (feeds : ∀ y ∈ n.presentOutputs, g.Feeds x y)
    (others : ∀ o ∈ n.outputs.drop 1, o = "" ∨ o ∉ g.uses)
    (h : n.forwardTo x = some change) : change.Admissible g rank n := by
  obtain ⟨y, hy, rfl⟩ := Node.forwardTo_eq_some_iff.1 h
  exact Graph.forwards_first sound layout hn hy hx
    (feeds y (Node.mem_presentOutputs_of_firstOutput? hy)) others

/-- Forwarding an input. -/
theorem Graph.forwardTo_input_admissible {g : Graph} (sound : g.Sound)
    (layout : Node.Layout rank g.nodes) (hn : n ∈ g.nodes) {i : Nat} {x : String}
    (hx : n.input? i = some x) (others : ∀ o ∈ n.outputs.drop 1, o = "" ∨ o ∉ g.uses)
    (h : n.forwardTo x = some change) : change.Admissible g rank n := by
  have hread := Node.mem_reads_of_input? hx
  obtain ⟨-, hne⟩ := Option.filter_eq_some_iff.1 hx
  exact Graph.forwardTo_admissible sound layout hn (by simpa using hne)
    (fun y hy => .node hn hread hy) others h

namespace View

variable (sound : v.graph.Sound) (layout : Node.Layout rank v.graph.nodes)
  (hn : v.graph.nodes[index]? = some n)

include sound layout hn

omit layout in
theorem regular_of_getElem? : n.Regular :=
  (sound.deepRegular (List.mem_of_getElem? hn)).regular

/-- Forwarding an input of a node that lists one output at most. -/
theorem forward_input (hd : n.isDefaultDomain = true) (ho : n.opType ∈ singleOutputOperators)
    {i : Nat} {x : String} (hx : n.input? i = some x) (h : n.forwardTo x = some change) :
    change.Admissible v.graph rank n := by
  have one := (regular_of_getElem? sound hn).drop_outputs hd ho
  exact Graph.forwardTo_input_admissible sound layout (List.mem_of_getElem? hn) hx
    (by simp [one]) h

theorem eliminateIdentity_admissible (h : v.eliminateIdentity n = some change) :
    change.Admissible v.graph rank n := by
  unfold eliminateIdentity at h
  split at h
  · rename_i hop
    obtain ⟨ho, hd⟩ := Node.isOperator_iff.1 hop
    simp only [Option.bind_eq_bind, Option.bind_eq_some_iff] at h
    obtain ⟨x, hx, h⟩ := h
    exact forward_input sound layout hn hd (by simp [ho, singleOutputOperators]) hx h
  · cases h

theorem eliminateNopDropout_admissible (h : v.eliminateNopDropout n = some change) :
    change.Admissible v.graph rank n := by
  unfold eliminateNopDropout at h
  simp only [Option.bind_eq_bind, Option.bind_eq_some_iff] at h
  obtain ⟨operator, -, h⟩ := h
  split at h
  · rename_i hop
    simp only [Bool.and_eq_true, Bool.not_eq_true', List.any_eq_false] at hop
    obtain ⟨x, hx, h⟩ := Option.bind_eq_some_iff.1 h
    refine Graph.forwardTo_input_admissible sound layout (List.mem_of_getElem? hn) hx ?_ h
    intro o ho
    have := hop.1.2 o ho
    by_cases hne : o = ""
    · exact Or.inl hne
    · refine Or.inr fun huse => this ?_
      simpa [hne, isUsed] using huse
  · cases h

theorem eliminateNopCast_admissible (h : v.eliminateNopCast n = some change) :
    change.Admissible v.graph rank n := by
  obtain ⟨x, type, hx, -, htarget, h⟩ := eliminateNopCast_eq_some h
  have hop : n.isOperator "Cast" = true ∨ n.isOperator "CastLike" = true :=
    (castTarget?_eq_some htarget).imp And.left And.left
  rcases hop with hop | hop <;> obtain ⟨ho, hd⟩ := Node.isOperator_iff.1 hop <;>
    exact forward_input sound layout hn hd (by simp [ho, singleOutputOperators]) hx h

theorem eliminateSameShape_admissible {opType : String} (ho : opType ∈ singleOutputOperators)
    (h : v.eliminateSameShape opType n = some change) : change.Admissible v.graph rank n := by
  obtain ⟨x, _, _, hop, hx, -, -, -, forwards⟩ := eliminateSameShape_eq_some h
  obtain ⟨rfl, hd⟩ := Node.isOperator_iff.1 hop
  exact forward_input sound layout hn hd ho hx forwards

theorem eliminateNopTranspose_admissible (h : v.eliminateNopTranspose n = some change) :
    change.Admissible v.graph rank n := by
  obtain ⟨x, _, hop, hx, -, -, h⟩ := eliminateNopTranspose_eq_some h
  obtain ⟨ho, hd⟩ := Node.isOperator_iff.1 hop
  exact forward_input sound layout hn hd (by simp [ho, singleOutputOperators]) hx h

omit layout hn in
/-- What a pattern with a neutral element binds is an operand. -/
theorem neutral_operand {output x : String} {p : Pattern} (hp : p ∈ neutralPatterns)
    {found : MatchState} (hm : p.matches? v.computations output = some found)
    (hx : found.value? "x" = some x) :
    ∃ i m, v.computations.producer? output = some (i, m) ∧ x ∈ m.inputs ∧ x ≠ "" := by
  have shape : ∃ opType number, p = .binary opType (.any "x") (.number number) ∧
      (isCommutative opType = true → opType = "Add" ∨ opType = "Mul") := by
    simp only [neutralPatterns, List.mem_cons, List.not_mem_nil, or_false] at hp
    rcases hp with rfl | rfl | rfl | rfl <;> exact ⟨_, _, rfl, by decide⟩
  obtain ⟨opType, number, rfl, commutes⟩ := shape
  obtain ⟨i, m, hprod, rfl, -, a, b, hops, hcase⟩ :=
    Pattern.matches?_binary_any (c := v.computations) hm hx
  obtain ⟨hi, -⟩ := v.computations_of output i m hprod
  have hb : b ≠ "" := Pattern.getLast_operands_ne hops
  refine ⟨i, m, hprod, ?_⟩
  have mem : ∀ y ∈ Pattern.operands m, y ∈ m.inputs := fun y => Pattern.mem_inputs_of_mem_operands
  rw [hops] at mem
  rcases hcase with ⟨rfl, -, hcomm | hne⟩ | ⟨rfl, -, -⟩
  · refine ⟨mem x (by simp), fun hempty => ?_⟩
    refine (regular_of_getElem? sound hi).operand (commutes hcomm) ?_
    rw [Pattern.head?_inputs hops, hempty]
  · exact ⟨mem x (by simp), hne⟩
  · exact ⟨mem x (by simp), hb⟩

theorem eliminateNopArithmetic_admissible (h : v.eliminateNopArithmetic n = some change) :
    change.Admissible v.graph rank n := by
  obtain ⟨output, p, found, x, _, _, hd, ho, hout, hp, hm, hx, -, -, -, -, h⟩ :=
    eliminateNopArithmetic_eq_some h
  have ho' : n.opType ∈ singleOutputOperators := by
    simp only [List.mem_cons, List.not_mem_nil, or_false] at ho
    rcases ho with ho | ho | ho | ho <;> simp [ho, singleOutputOperators]
  have one := (regular_of_getElem? sound hn).drop_outputs hd ho'
  obtain ⟨i, m, hprod, hread, hne⟩ := neutral_operand sound hp hm hx
  obtain ⟨hi, hy⟩ := v.computations_of output i m hprod
  refine Graph.forwardTo_admissible sound layout (List.mem_of_getElem? hn) hne ?_ (by simp [one]) h
  intro y hyn
  rw [Node.eq_of_mem_presentOutputs one hout hyn]
  exact .node (List.mem_of_getElem? hi) (Node.mem_reads.2 (Or.inl
    (Node.mem_presentInputs.2 ⟨hread, hne⟩))) hy

omit sound layout in
/-- What the producer of the first input reads feeds the outputs. -/
theorem feeds_of_producer? {x y z : String} {i : Nat} {inner : Node}
    (hy : n.input? 0 = some y) (hprod : v.producer? y = some (i, inner))
    {k : Nat} (hx : inner.input? k = some x) (hz : z ∈ n.presentOutputs) : v.graph.Feeds x z := by
  obtain ⟨hi, hout⟩ := v.computations_of y i inner hprod
  exact (Graph.Feeds.node (List.mem_of_getElem? hi) (Node.mem_reads_of_input? hx) hout).trans
    (.node (List.mem_of_getElem? hn) (Node.mem_reads_of_input? hy) hz)

theorem fuseSqueezeUnsqueeze_admissible (h : v.fuseSqueezeUnsqueeze n = some change) :
    change.Admissible v.graph rank n := by
  obtain ⟨y, i, inner, x, _, _, _, _, _, hy, hprod, hx, -, -, -, h, -, hop⟩ :=
    fuseSqueezeUnsqueeze_eq_some h
  have hdo : n.isDefaultDomain = true ∧ n.opType ∈ singleOutputOperators := by
    rcases hop with ⟨hop, -⟩ | ⟨hop, -⟩ <;> obtain ⟨ho, hd⟩ := Node.isOperator_iff.1 hop <;>
      exact ⟨hd, by simp [ho, singleOutputOperators]⟩
  have one := (regular_of_getElem? sound hn).drop_outputs hdo.1 hdo.2
  obtain ⟨-, hne⟩ := Option.filter_eq_some_iff.1 hx
  exact Graph.forwardTo_admissible sound layout (List.mem_of_getElem? hn) (by simpa using hne)
    (fun z hz => feeds_of_producer? hn hy hprod hx hz) (by simp [one]) h

/-! ## Nodes with other inputs -/

end View

namespace Node

theorem mem_reads_withFirstInput {x y : String} (h : y ∈ (View.withFirstInput n x).reads) :
    y ∈ n.reads ∨ (y = x ∧ x ≠ "") := by
  rcases mem_reads.1 h with hy | hy
  · obtain ⟨hy, hne⟩ := mem_presentInputs.1 hy
    rcases List.mem_or_eq_of_mem_set hy with hy | rfl
    · exact Or.inl (mem_reads.2 (Or.inl (mem_presentInputs.2 ⟨hy, hne⟩)))
    · exact Or.inr ⟨rfl, hne⟩
  · exact Or.inl (mem_reads.2 (Or.inr hy))

theorem storable_setAttribute {name : String} {value : AttributeValue} (h : n.Storable)
    (hv : value.tensorList = []) : (n.setAttribute name value).Storable := by
  refine ⟨h.opType, h.unknown, ?_⟩
  have := h.attributes
  unfold setAttribute
  simp only
  revert this
  induction n.attributes with
  | nil =>
      intro _ a ha
      cases List.mem_singleton.1 ha
      exact ⟨Wire.unknown_nil _, by simp [hv]⟩
  | cons a rest ih =>
      intro all b hb
      unfold setAttributeIn at hb
      split at hb
      · rcases List.mem_cons.1 hb with rfl | hb
        · exact ⟨(all a List.mem_cons_self).unknown, by simp [hv]⟩
        · exact all b (List.mem_cons_of_mem _ hb)
      · rcases List.mem_cons.1 hb with rfl | hb
        · exact all b List.mem_cons_self
        · exact ih (fun c hc => all c (List.mem_cons_of_mem _ hc)) b hb

/-- A node without control flow may get another first input and other attributes. -/
theorem Regular.of_operator {n m : Node} (h : n.Regular) (hop : m.opType = n.opType)
    (hdom : m.domain = n.domain) (houts : m.outputs = n.outputs)
    (hsub : m.subgraphs.Sublist n.subgraphs)
    (hne : n.opType ∉ ["If", "Loop", "Add", "Mul"]) (hs : m.Storable) : m.Regular := by
  simp only [List.mem_cons, List.not_mem_nil, or_false, not_or] at hne
  obtain ⟨hif, hloop, hadd, hmul⟩ := hne
  have hd : m.isDefaultDomain = n.isDefaultDomain := by
    unfold isDefaultDomain
    rw [hdom]
  refine ⟨checkControlFlow_of_ne (hop ▸ hif) (hop ▸ hloop), ?_, ?_, ?_, hs⟩
  · unfold Fits
    rw [hd, hop, houts]
    exact h.fits
  · rintro (ho | ho)
    · exact absurd (hop ▸ ho) hadd
    · exact absurd (hop ▸ ho) hmul
  · intro hd' ho
    rw [h.flat (hd ▸ hd') (hop ▸ ho)] at hsub
    exact List.sublist_nil.1 hsub

/-- A new node without attributes. -/
theorem DeepRegular.of_plain {m : Node} (hattr : m.attributes = []) (hu : m.unknown = [])
    (hop : m.opType ∉ ["", "If", "Loop", "Add", "Mul"]) (hout : m.outputs.length ≤ 1) :
    m.DeepRegular := by
  simp only [List.mem_cons, List.not_mem_nil, or_false, not_or] at hop
  obtain ⟨hne, hif, hloop, hadd, hmul⟩ := hop
  refine ⟨⟨checkControlFlow_of_ne hif hloop, fun _ _ => hout, fun ho => ?_,
    fun _ _ => by simp [subgraphs, hattr], ⟨hne, ?_, ?_⟩⟩, ?_⟩
  · exact (ho.elim hadd hmul).elim
  · rw [hu]
    exact Wire.unknown_nil _
  · simp [hattr]
  · simp [subgraphs, hattr]

theorem subgraphs_of_plain {m : Node} (hattr : m.attributes = []) : m.subgraphs = [] := by
  simp [subgraphs, hattr]

theorem mem_reads_of_plain {m : Node} (hattr : m.attributes = []) {x : String} :
    x ∈ m.reads ↔ x ∈ m.presentInputs := by
  rw [mem_reads, subgraphs_of_plain hattr]
  simp

end Node

namespace View

variable (sound : v.graph.Sound) (layout : Node.Layout rank v.graph.nodes)
  (hn : v.graph.nodes[index]? = some n)

include sound layout hn

/-- A node that differs in its first input and its plain attributes may take the place of another
one, when the new input feeds the outputs. -/
theorem replaces_withFirstInput {x : String} {m : Node}
    (hne : n.opType ∉ ["If", "Loop", "Add", "Mul"])
    (feeds : ∀ y ∈ n.presentOutputs, x = "" ∨ v.graph.Feeds x y)
    (hop : m.opType = n.opType) (hdom : m.domain = n.domain) (houts : m.outputs = n.outputs)
    (hins : m.inputs = n.inputs.set 0 x) (hsub : m.subgraphs.Sublist n.subgraphs)
    (hs : m.Storable)
    (visible : x ≠ "" → x ∈ v.graph.definedNames ∨ x ∈ v.graph.captures) :
    v.graph.Replaces rank n m := by
  have hmem := List.mem_of_getElem? hn
  have deep := sound.deepRegular hmem
  have reads : ∀ y ∈ m.reads, y ∈ n.reads ∨ (y = x ∧ x ≠ "") := by
    intro y hy
    refine Node.mem_reads_withFirstInput (Node.mem_reads.2 ?_)
    rcases Node.mem_reads.1 hy with hy | ⟨p, hp, hy⟩
    · refine Or.inl ?_
      unfold Node.presentInputs at hy ⊢
      rwa [hins] at hy
    · exact Or.inr ⟨p, hsub.subset hp, hy⟩
  have houts' : m.presentOutputs = n.presentOutputs := by
    unfold Node.presentOutputs
    rw [houts]
  refine ⟨⟨deep.regular.of_operator hop hdom houts hsub hne hs, fun p hp => deep.inside p
    (hsub.subset hp)⟩, fun y => Nat.le_of_eq (by rw [houts']), fun y => ?_, ?_, ?_⟩
  · exact (hsub.flatMap _).count_le y
  · intro y hy
    rcases reads y hy with hy | ⟨rfl, hne⟩
    · exact Graph.reads_subset hmem hy
    · exact visible hne
  · intro y hy z hz
    rw [houts'] at hz
    rcases reads y hy with hy | ⟨rfl, hne⟩
    · exact layout.reads n hmem y hy z hz
    · exact ((feeds z hz).resolve_left hne).rank_lt layout.reads

theorem fuseReshapes_admissible (h : v.fuseReshapes n = some change) :
    change.Admissible v.graph rank n := by
  obtain ⟨output, found, x, _, _, _, hop, hout, hm, hx, -, -, -, -, rfl⟩ := fuseReshapes_eq_some h
  obtain ⟨ho, hd⟩ := Node.isOperator_iff.1 hop
  have one := (regular_of_getElem? sound hn).drop_outputs hd (by simp [ho, singleOutputOperators])
  have feeds : ∀ y ∈ n.presentOutputs, x = "" ∨ v.graph.Feeds x y := by
    intro y hy
    rw [Node.eq_of_mem_presentOutputs one hout hy]
    exact Pattern.matches?_feeds v.computations_of hm hx
  have storable := (regular_of_getElem? sound hn).storable
  exact ⟨rfl, _, rfl, replaces_withFirstInput sound layout hn (by simp [ho]) feeds rfl rfl rfl
    rfl (List.Sublist.refl _) ⟨storable.opType, storable.unknown, storable.attributes⟩
    fun hne => ((Pattern.matches?_feeds v.computations_of hm hx).resolve_left hne).visible⟩

theorem fuseTransposes_admissible (h : v.fuseTransposes n = some change) :
    change.Admissible v.graph rank n := by
  obtain ⟨y, i, inner, x, _, _, perm, hy, hprod, hop, -, -, -, -, hx, rfl⟩ :=
    fuseTransposes_eq_some h
  obtain ⟨ho, -⟩ := Node.isOperator_iff.1 hop
  obtain ⟨hi, -⟩ := v.computations_of y i inner hprod
  have storable := (regular_of_getElem? sound hn).storable
  exact ⟨rfl, _, rfl, replaces_withFirstInput sound layout hn (by simp [ho])
    (fun z hz => Or.inr (feeds_of_producer? hn hy hprod hx hz)) rfl rfl rfl rfl
    (Node.subgraphs_setAttribute (n := withFirstInput n x) _ _ rfl)
    (Node.storable_setAttribute (n := withFirstInput n x)
      ⟨storable.opType, storable.unknown, storable.attributes⟩ rfl)
    fun _ => Graph.reads_subset (List.mem_of_getElem? hi) (Node.mem_reads_of_input? hx)⟩

omit sound hn in
theorem fuseProductAndSum_admissible (h : v.fuseProductAndSum n = some change) :
    change.Admissible v.graph rank n := by
  obtain ⟨output, found, _, product, a, b, c, _, _, _, _, _, _, -, hout, hm, -, -, ha, hb, hc, -, -,
    -, -, -, -, -, -, rfl⟩ := fuseProductAndSum_eq_some h
  have feeds : ∀ x ∈ [a, b, c], x = "" ∨ v.graph.Feeds x output := by
    intro x hx
    simp only [List.mem_cons, List.not_mem_nil, or_false] at hx
    rcases hx with rfl | rfl | rfl
    · exact Pattern.matches?_feeds v.computations_of hm ha
    · exact Pattern.matches?_feeds v.computations_of hm hb
    · exact Pattern.matches?_feeds v.computations_of hm hc
  refine ⟨rfl, _, rfl, ⟨.of_plain rfl rfl (by simp) (Nat.le_refl _), ?_, ?_, ?_, ?_⟩⟩
  · intro x
    have sub : [output].Sublist n.outputs :=
      List.singleton_sublist.2 (List.mem_of_mem_head? hout)
    exact (sub.filter _).count_le x
  · intro x
    rw [Node.innerNames_eq_nil (Node.subgraphs_of_plain rfl)]
    exact Nat.zero_le _
  · intro x hx
    obtain ⟨hx, hne⟩ := Node.mem_presentInputs.1 ((Node.mem_reads_of_plain rfl).1 hx)
    exact ((feeds x hx).resolve_left hne).visible
  · intro x hx y hy
    obtain ⟨hx, hne⟩ := Node.mem_presentInputs.1 ((Node.mem_reads_of_plain rfl).1 hx)
    have hy' : y = output := List.mem_singleton.1 (Node.mem_presentOutputs.1 hy).1
    rw [hy']
    exact ((feeds x hx).resolve_left hne).rank_lt layout.reads

end View

/-! ## Equal computations -/

/-- Outputs are paired position by position. -/
theorem View.pairOutputs?_eq_zip {outputs others : List String} {pairs : List (String × String)}
    (h : pairOutputs? outputs others = some pairs) :
    pairs = (outputs.zip others).filter (fun p => p.1 ≠ "") ∧ ∀ p ∈ pairs, p.2 ≠ "" := by
  induction outputs generalizing others pairs with
  | nil =>
      cases h
      simp
  | cons output outputs ih =>
      cases others with
      | nil =>
          cases h
          simp
      | cons other others =>
          unfold pairOutputs? at h
          by_cases hout : output = ""
          · rw [if_pos hout] at h
            obtain ⟨hpairs, named⟩ := ih h
            exact ⟨by simp [hpairs, hout], named⟩
          · rw [if_neg hout] at h
            by_cases hother : other = ""
            · rw [if_pos hother] at h
              cases h
            · rw [if_neg hother] at h
              obtain ⟨rest, hrest, rfl⟩ := Option.map_eq_some_iff.1 h
              obtain ⟨hpairs, named⟩ := ih hrest
              refine ⟨by simp [hpairs, hout], List.forall_mem_cons.2 ⟨hother, named⟩⟩

/-- All outputs that are not omitted have partners. -/
theorem View.pairOutputs?_eq_some {outputs others : List String} {pairs : List (String × String)}
    (hlen : others.length = outputs.length) (h : pairOutputs? outputs others = some pairs) :
    pairs.map Prod.fst = outputs.filter (· ≠ "") ∧
      (pairs.map Prod.snd).Sublist (others.filter (· ≠ "")) := by
  obtain ⟨hpairs, named⟩ := pairOutputs?_eq_zip h
  constructor
  · calc pairs.map Prod.fst
        = ((outputs.zip others).map Prod.fst).filter (· ≠ "") := by
          rw [hpairs, List.filter_map]
          rfl
      _ = outputs.filter (· ≠ "") := by rw [List.map_fst_zip hlen.ge]
  · have kept : (pairs.map Prod.snd).filter (· ≠ "") = pairs.map Prod.snd := by
      refine List.filter_eq_self.2 fun y hy => ?_
      obtain ⟨p, hp, rfl⟩ := List.mem_map.1 hy
      simpa using named p hp
    rw [← kept, ← List.map_snd_zip hlen.le]
    exact ((hpairs ▸ List.filter_sublist).map Prod.snd).filter _

namespace View

/-- A node is merged with an earlier one that computes the same. -/
theorem exists_earlier_of_mergeNodes (h : v.mergeNodes index n = some change) :
    ∃ earlier pairs operator, earlier ∈ v.graph.nodes.take index ∧
      earlier.sameComputation n = true ∧ Operator.ofNode v.version n = .ok operator ∧
      operator.isDeterministic = true ∧ pairOutputs? n.outputs earlier.outputs = some pairs ∧
      change = .forward pairs := by
  unfold mergeNodes at h
  simp only [Option.bind_eq_bind, Option.bind_eq_some_iff] at h
  obtain ⟨operator, read, h⟩ := h
  split at h
  · cases h
  · rename_i refused
    simp only [Option.bind_eq_some_iff] at h
    obtain ⟨earlier, found, pairs, hpairs, h⟩ := h
    cases h
    have same : earlier.sameComputation n = true := by simpa using List.find?_some found
    simp only [Bool.or_eq_true, Bool.not_eq_true', not_or, Bool.not_eq_false] at refused
    refine ⟨earlier, pairs, operator, List.mem_of_find?_eq_some found, same, ?_, refused.2, hpairs,
      rfl⟩
    cases read' : Operator.ofNode v.version n with
    | error e =>
        rw [read'] at read
        cases read
    | ok operator' =>
        rw [read'] at read
        cases read
        rfl

/-- Its outputs stand for those of the merged node. -/
theorem mergeNodes_eq_some (h : v.mergeNodes index n = some change) :
    ∃ earlier pairs, earlier ∈ v.graph.nodes.take index ∧ change = .forward pairs ∧
      pairs.map Prod.fst = n.presentOutputs ∧
      (pairs.map Prod.snd).Sublist earlier.presentOutputs := by
  obtain ⟨earlier, pairs, operator, hearlier, same, -, -, hpairs, rfl⟩ :=
    exists_earlier_of_mergeNodes h
  have hlen : earlier.outputs.length = n.outputs.length := by
    simp only [Node.sameComputation, Bool.and_eq_true, decide_eq_true_eq] at same
    exact same.1.2
  obtain ⟨hfst, hsnd⟩ := pairOutputs?_eq_some hlen hpairs
  exact ⟨earlier, pairs, hearlier, rfl, hfst, hsnd⟩

variable (sound : v.graph.Sound) (layout : Node.Layout rank v.graph.nodes)
  (hn : v.graph.nodes[index]? = some n)

include sound layout hn

theorem mergeNodes_admissible (h : v.mergeNodes index n = some change) :
    change.Admissible v.graph rank n := by
  obtain ⟨earlier, pairs, hmem, rfl, hfst, hsnd⟩ := mergeNodes_eq_some h
  obtain ⟨before, after, hnodes, -, htake, -⟩ := Graph.exists_split hn
  rw [htake] at hmem
  have hearlier' : earlier ∈ v.graph.nodes := by
    rw [hnodes]
    exact List.mem_append_left _ hmem
  have hdistinct := sound.separate.distinct
  have source : ∀ p ∈ pairs, p.1 ∈ n.presentOutputs := by
    intro p hp
    rw [← hfst]
    exact List.mem_map.2 ⟨p, hp, rfl⟩
  have target : ∀ p ∈ pairs, p.2 ∈ earlier.presentOutputs := fun p hp =>
    hsnd.subset (List.mem_map.2 ⟨p, hp, rfl⟩)
  have nodup : ∀ m ∈ v.graph.nodes, m.presentOutputs.Nodup :=
    (List.pairwise_flatMap.1 hdistinct).1
  have order : ∀ y ∈ earlier.presentOutputs, ∀ z ∈ n.presentOutputs, rank y < rank z := by
    have := layout.order
    rw [hnodes, List.pairwise_append] at this
    exact this.2.2 earlier hmem n List.mem_cons_self
  constructor
  case sources => exact source
  case covered =>
    intro o ho
    rw [hfst]
    exact Or.inl ho
  case distinctSources =>
    rw [hfst]
    exact nodup n (List.mem_of_getElem? hn)
  case distinctTargets => exact hsnd.nodup (nodup earlier hearlier')
  case visible =>
    intro p hp
    exact Or.inl (Graph.mem_definedNames.2 (Or.inr (Or.inr
      (Graph.mem_produced.2 ⟨earlier, hearlier', target p hp⟩))))
  case named => exact fun p hp => (Node.mem_presentOutputs.1 (target p hp)).2
  case foreign =>
    intro p hp hmem'
    exact Nat.lt_irrefl _ (order p.2 (target p hp) p.2 hmem')
  case lower => exact fun p hp => Nat.le_of_lt (order p.2 (target p hp) p.1 (source p hp))

end View

/-- Each rule that makes no new names proposes admissible changes only. -/
theorem Rule.propose_admissible (sound : v.graph.Sound) (layout : Node.Layout rank v.graph.nodes)
    (hn : v.graph.nodes[index]? = some n) {r : Rule} (hr : r ≠ .fuseNormalizationIntoConv)
    {taken : List String} (h : (r.propose v taken index n).2 = some change) :
    change.Admissible v.graph rank n := by
  cases r with
  | eliminateIdentity => exact v.eliminateIdentity_admissible sound layout hn h
  | eliminateNopDropout => exact v.eliminateNopDropout_admissible sound layout hn h
  | eliminateNopCast => exact v.eliminateNopCast_admissible sound layout hn h
  | eliminateNopReshape => exact v.eliminateSameShape_admissible sound layout hn (by decide) h
  | eliminateNopTranspose => exact v.eliminateNopTranspose_admissible sound layout hn h
  | eliminateNopExpand => exact v.eliminateSameShape_admissible sound layout hn (by decide) h
  | eliminateNopArithmetic => exact v.eliminateNopArithmetic_admissible sound layout hn h
  | fuseReshapes => exact v.fuseReshapes_admissible sound layout hn h
  | fuseTransposes => exact v.fuseTransposes_admissible sound layout hn h
  | fuseSqueezeUnsqueeze => exact v.fuseSqueezeUnsqueeze_admissible sound layout hn h
  | fuseNormalizationIntoConv => exact absurd rfl hr
  | fuseProductAndSum => exact v.fuseProductAndSum_admissible layout h
  | mergeInitializers => cases h
  | mergeNodes => exact v.mergeNodes_admissible sound layout hn h

end

end TensorGraph
