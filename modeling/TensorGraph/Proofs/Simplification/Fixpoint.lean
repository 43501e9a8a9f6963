import TensorGraph.Proofs.Simplification.Fold
import TensorGraph.Proofs.Simplification.Prune
import TensorGraph.Proofs.Simplification.Sweep
import TensorGraph.Simplification.Fixpoint

/-!
# Passes succeed

Input:

* a sound graph, and constants around it that can be stored;
* options: nested graphs are left alone, or the rules make no new names.

Algorithm:

* every pass takes a sound graph in order to one that can stand for it (`Graph.Evolves`), and so do
  all passes together;
* a nested graph is replaced by one that was made smaller from it, or stays as it is.

Main results:

* `Graph.Sound.simplifies_of_nested`: nested graphs may be made smaller;
* `Simplifier.simplifyGraph_succeeds`: a graph is simplified down to any depth without an error.
-/

namespace TensorGraph

/-! ## Computations that report -/

/-- Whether the result of a computation has a property, whatever was reported before. -/
def Returns {α : Type} (p : StateM Report α) (Q : α → Prop) : Prop := ∀ r, Q (p.run r).1

/-- Whether the result of a computation that may fail has a property, if there is one, whatever was
reported before. -/
def Simplifying.Yields {α : Type} (p : Simplifying α) (Q : α → Prop) : Prop :=
  Returns p.run fun e => Ensures e Q

/-- Whether a computation succeeds with a property, whatever was reported before. -/
def Simplifying.Succeeds {α : Type} (p : Simplifying α) (Q : α → Prop) : Prop :=
  Returns p.run fun e => ∃ x, e = .ok x ∧ Q x

namespace Returns

variable {α β : Type} {p : StateM Report α} {P Q : α → Prop} {R : β → Prop}

theorem pure {x : α} (h : Q x) : Returns (Pure.pure x) Q := fun _ => h

theorem bind {f : α → StateM Report β} (h : Returns p Q) (next : ∀ x, Q x → Returns (f x) R) :
    Returns (p >>= f) R :=
  fun r => next _ (h r) (p.run r).2

theorem map {f : α → β} (h : Returns p fun x => R (f x)) : Returns (f <$> p) R := fun r => h r

theorem mono (h : Returns p P) (imp : ∀ x, P x → Q x) : Returns p Q := fun r => imp _ (h r)

/-- Reporting does not change what is returned. -/
theorem modify_bind {f : Report → Report} (h : Returns p Q) :
    Returns (do modify f; p) Q :=
  bind (p := modify f) (Q := fun _ => True) (fun _ => trivial) fun _ _ => h

theorem mapM {S : β → α → Prop} {f : β → StateM Report α} {l : List β}
    (each : ∀ y ∈ l, Returns (f y) (S y)) : Returns (l.mapM f) (List.Forall₂ S l) := by
  induction l with
  | nil => exact pure .nil
  | cons y rest ih =>
      rw [List.mapM_cons]
      refine bind (each y List.mem_cons_self) fun x hx => ?_
      exact bind (ih fun z hz => each z (List.mem_cons_of_mem _ hz)) fun xs hxs =>
        pure (.cons hx hxs)

end Returns

namespace Simplifying

variable {α β : Type} {p : Simplifying α} {P Q : α → Prop} {R : β → Prop}

namespace Yields

theorem pure {x : α} (h : Q x) : Yields (Pure.pure x) Q := Returns.pure (.ok h)

theorem bind {f : α → Simplifying β} (h : p.Yields Q) (next : ∀ x, Q x → (f x).Yields R) :
    Yields (p >>= f) R := by
  unfold Yields
  rw [ExceptT.run_bind]
  refine Returns.bind h fun e he => ?_
  cases e with
  | error e => exact Returns.pure .error
  | ok x => exact next x (he x rfl)

theorem mono (h : p.Yields P) (imp : ∀ x, P x → Q x) : p.Yields Q :=
  Returns.mono h fun _ he => he.mono imp

/-- Nothing needs to be known of a result that is not used. -/
theorem bind_any {f : α → Simplifying β} (next : ∀ x, (f x).Yields R) : Yields (p >>= f) R :=
  bind (Q := fun _ => True) (fun _ _ _ => trivial) fun x _ => next x

theorem ofExcept {ε : Type} {error : ε → SimplifyError} {e : Except ε α} (h : Ensures e Q) :
    Yields (ofExcept error e) Q := by
  cases e with
  | error e => exact fun _ => .error
  | ok x => exact pure (h x rfl)

/-- A computation that cannot fail. -/
theorem lift {q : StateM Report α} (h : Returns q Q) : Yields (liftM q) Q := fun r => .ok (h r)

end Yields

namespace Succeeds

theorem pure {x : α} (h : Q x) : Succeeds (Pure.pure x) Q := fun _ => ⟨x, rfl, h⟩

theorem bind {f : α → Simplifying β} (h : p.Succeeds Q) (next : ∀ x, Q x → (f x).Succeeds R) :
    Succeeds (p >>= f) R := by
  unfold Succeeds
  rw [ExceptT.run_bind]
  refine Returns.bind h fun e he => ?_
  obtain ⟨x, rfl, hx⟩ := he
  exact next x hx

theorem mono (h : p.Succeeds P) (imp : ∀ x, P x → Q x) : p.Succeeds Q :=
  Returns.mono h fun _ ⟨x, hx, hP⟩ => ⟨x, hx, imp x hP⟩

theorem yields (h : p.Succeeds Q) : p.Yields Q := by
  refine Returns.mono h fun e he => ?_
  obtain ⟨x, rfl, hx⟩ := he
  exact .ok hx

theorem modify {f : Report → Report} : Succeeds (modify f) fun _ => True :=
  fun _ => ⟨(), rfl, trivial⟩

theorem addNotes (notes : List Note) : Succeeds (addNotes notes) fun _ => True := modify

theorem ofExcept {ε : Type} {error : ε → SimplifyError} {e : Except ε α} {x : α} (h : e = .ok x)
    (hx : Q x) : Succeeds (ofExcept error e) Q := by
  rw [h]
  exact pure hx

/-- A sound graph can be sorted. -/
theorem sorted {g : Graph} (sound : g.Sound) : Succeeds (sorted g) g.Simplifies := by
  obtain ⟨g', hg', simplifies⟩ := sound.sortTopologically
  exact ofExcept hg' simplifies

/-- A computation that returns a value of its own succeeds. -/
theorem lift {q : StateM Report α} (h : Returns q Q) : Succeeds (liftM q) Q :=
  fun r => ⟨(q.run r).1, rfl, h r⟩

end Succeeds
end Simplifying

/-! ## Nested graphs -/

/-- Whether a nested graph was made smaller and is still regular. -/
structure Graph.Shrinks (g g' : Graph) : Prop where
  reduces : g.Reduces g'
  regular : g'.Everywhere Graph.Regular

namespace Node

variable {R : Graph → Graph → Prop} {n n' : Node}

theorem returns_mapGraphsM {f : String → Graph → StateM Report Graph}
    (each : ∀ p ∈ n.subgraphs, Returns (f p.1 p.2) (R p.2)) :
    Returns (n.mapGraphsM f) (Revises R n) := by
  have value : ∀ (v : AttributeValue) (f : Graph → StateM Report Graph),
      (∀ g ∈ v.graphList, Returns (f g) (R g)) →
      Returns (v.mapGraphsM f) fun v' => v.Nested R v' ∧ (v.graphList = [] → v' = v) := by
    intro v f each
    unfold AttributeValue.mapGraphsM
    split
    · refine Returns.map ((each _ (by simp [AttributeValue.graphList])).mono fun g' hg' => ?_)
      exact ⟨.graph hg', fun none => by cases none⟩
    · refine Returns.map ((Returns.mapM each).mono fun gs' hgs' => ⟨.graphs hgs', ?_⟩)
      rintro (rfl : _ = [])
      rw [List.forall₂_nil_left_iff.1 hgs']
    · have none : v.graphList = [] := by
        cases v <;> first | rfl | simp_all
      exact Returns.pure ⟨.plain none none, fun _ => rfl⟩
  unfold mapGraphsM
  refine Returns.bind (Returns.mapM (S := Attribute.Revises R) fun a ha => ?_) fun attributes all =>
    Returns.pure ⟨attributes, rfl, all⟩
  refine Returns.bind (value a.value (f a.name) fun g hg => each (a.name, g) ?_) fun v hv =>
    Returns.pure ⟨v, rfl, hv⟩
  simp only [subgraphs, List.mem_flatMap, List.mem_map]
  exact ⟨a, ha, g, hg, rfl⟩

namespace Revises

variable (h : Revises Graph.Shrinks n n')

include h

theorem presentOutputs : n'.presentOutputs = n.presentOutputs := by
  obtain ⟨attributes, rfl, -⟩ := h
  rfl

theorem reads {x : String} (hx : x ∈ n'.reads) : x ∈ n.reads := by
  rcases mem_reads.1 hx with hx | ⟨p', hp', hx⟩
  · obtain ⟨attributes, rfl, -⟩ := h
    exact mem_reads.2 (Or.inl hx)
  · obtain ⟨p, hp, shrinks⟩ := h.nested.exists_left hp'
    exact mem_reads.2 (Or.inr ⟨p, hp, shrinks.reduces.captures x hx⟩)

theorem count_innerNames_le (x : String) : n'.innerNames.count x ≤ n.innerNames.count x :=
  h.nested.count_innerNames_le fun _ _ shrinks => shrinks.reduces.count_allDefinitions x

theorem deepRegular (hn : n.DeepRegular) : n'.DeepRegular := by
  have nested := h.nested
  have regular := hn.regular
  have storable := regular.storable.revise h
  obtain ⟨attributes, rfl, -⟩ := h
  refine ⟨⟨?_, regular.fits, regular.operand, regular.flat.of_nested nested, storable⟩, fun p' hp' => ?_⟩
  · refine nested.checkControlFlow rfl rfl (fun g g' shrinks => ⟨?_, ?_⟩) regular.control
    · rw [shrinks.reduces.inputs]
    · have := congrArg List.length shrinks.reduces.outputs
      unfold Graph.outputNames at this
      rwa [List.length_map, List.length_map] at this
  · obtain ⟨p, -, shrinks⟩ := nested.exists_left hp'
    exact shrinks.regular

end Revises
end Node

namespace Graph

variable {g : Graph} {ns : List Node}

/-- Nested graphs may be made smaller. -/
theorem Sound.simplifies_of_nested (sound : g.Sound) (sorted : Node.Sorted g.nodes)
    (all : List.Forall₂ (Node.Revises Shrinks) g.nodes ns) :
    g.Simplifies { g with nodes := ns } := by
  have outputs : ∀ {ms ms' : List Node}, List.Forall₂ (Node.Revises Shrinks) ms ms' →
      ms'.flatMap Node.presentOutputs = ms.flatMap Node.presentOutputs := by
    intro ms ms' all
    induction all with
    | nil => rfl
    | cons first _ ih => rw [List.flatMap_cons, List.flatMap_cons, first.presentOutputs, ih]
  have inner : ∀ {ms ms' : List Node} (x : String), List.Forall₂ (Node.Revises Shrinks) ms ms' →
      (ms'.flatMap Node.innerNames).count x ≤ (ms.flatMap Node.innerNames).count x := by
    intro ms ms' x all
    induction all with
    | nil => exact Nat.le_refl _
    | cons first _ ih =>
        have := first.count_innerNames_le x
        rw [List.flatMap_cons, List.flatMap_cons, List.count_append, List.count_append]
        omega
  have ordered : ∀ {ms ms' : List Node}, List.Forall₂ (Node.Revises Shrinks) ms ms' →
      Node.Sorted ms → Node.Sorted ms' := by
    intro ms ms' all
    induction all with
    | nil => exact fun h => h
    | cons first rest ih =>
        intro h
        refine ⟨fun x hx m' hm' => ?_, ih h.2⟩
        obtain ⟨m, hm, rel⟩ := exists_left_of_forall₂ (.cons first rest) hm'
        rw [rel.presentOutputs]
        exact h.1 x (first.reads hx) m hm
  have reduces : g.Reduces { g with nodes := ns } := by
    refine Reduces.of_parts (fun x => ?_) (fun _ _ => Iff.rfl) (fun x hx => ?_) fun m' hm' x hx => ?_
    · rw [outputs all, count_made]
      exact Nat.add_le_add_left (inner x all) _
    · rw [outputs all]
      exact hx
    · obtain ⟨m, hm, rel⟩ := exists_left_of_forall₂ all hm'
      exact Or.inr (Or.inr ⟨m, hm, rel.reads hx⟩)
  have sorted' : Node.Sorted ns := ordered all sorted
  refine ⟨sound_iff.2 ⟨sound.separate.reduce reduces, fun m' hm' => ?_, ?_, ?_⟩, reduces, sorted'⟩
  · obtain ⟨m, hm, rel⟩ := exists_left_of_forall₂ all hm'
    exact rel.deepRegular (sound.deepRegular hm)
  · exact sorted'.acyclic (sound.separate.reduce reduces).distinct
  · exact ⟨sound.storable.unknown, sound.storable.initializers, sound.storable.inputs,
      sound.storable.outputs, sound.storable.valueInfo⟩

/-! ## Declarations -/

theorem storable_updatedDeclaration? (h : g.Storable) {facts : Scope Facts} {name : String}
    {v : ValueInfo} (hv : g.updatedDeclaration? facts name = some v) : v.Storable := by
  unfold updatedDeclaration? at hv
  split at hv
  · cases hv
  · split at hv
    · cases hv
      intro m hm
      cases hm
    · have hmem := List.mem_reverse.1 (mem_of_lookup hv)
      obtain ⟨u, hu, heq⟩ := List.mem_map.1 hmem
      cases heq
      exact h.valueInfo _ hu

theorem fillDeclaration_spec (facts : Scope Facts) (v : ValueInfo) :
    (fillDeclaration facts v).name = v.name ∧ (fillDeclaration facts v).source = v.source := by
  unfold fillDeclaration
  split <;> exact ⟨rfl, rfl⟩

/-- Declarations can be updated. -/
theorem updateDeclarations_simplifies (sound : g.Sound) (sorted : Node.Sorted g.nodes)
    (facts : Scope Facts) :
    ∃ g', g.updateDeclarations facts = .ok g' ∧ g.Simplifies g' := by
  obtain ⟨order, horder⟩ := topologicalOrder_of_acyclic sound.acyclic
  refine ⟨_, by unfold updateDeclarations; rw [horder]; rfl, ?_⟩
  generalize hnames : (order.filterMap fun i => g.nodes[i]?).flatMap Node.presentOutputs = names
  have outputs : (g.outputs.map (fillDeclaration facts)).map ValueInfo.name = g.outputNames := by
    rw [List.map_map]
    exact List.map_congr_left fun v _ => (fillDeclaration_spec facts v).1
  have reduces : g.Reduces { g with
      valueInfo := names.filterMap (g.updatedDeclaration? facts)
      outputs := g.outputs.map (fillDeclaration facts) } := by
    refine ⟨rfl, outputs, fun _ => Nat.le_refl _, fun _ _ => Iff.rfl, fun x hx => ?_⟩
    rw [mem_captures] at hx ⊢
    rw [outputs] at hx
    exact hx
  refine ⟨sound_iff.2 ⟨sound.separate.reduce reduces, fun n hn => sound.deepRegular hn,
    sound.acyclic, sound.storable.unknown, sound.storable.initializers, sound.storable.inputs,
    fun v hv => ?_, fun v hv => ?_⟩, reduces, sorted⟩
  · obtain ⟨o, ho, rfl⟩ := List.mem_map.1 hv
    intro m hm
    rw [(fillDeclaration_spec facts o).2] at hm
    exact sound.storable.outputs o ho m hm
  · obtain ⟨name, -, hname⟩ := List.mem_filterMap.1 hv
    exact storable_updatedDeclaration? sound.storable hname

end Graph

/-! ## Passes -/

/-- Whether no rule that is switched on makes new names. -/
def Options.KeepsNames (o : Options) : Prop := Rule.fuseNormalizationIntoConv ∉ o.rules

namespace Simplifier

open Simplifying

variable {s : Simplifier} {around : Surroundings} {g : Graph}

theorem prune_simplifies (s : Simplifier) (sound : g.Sound) (sorted : Node.Sorted g.nodes) :
    g.Simplifies (s.prune g) := by
  have first := Graph.eliminateDeadCode_simplifies sound sorted s.version
  exact first.trans (Graph.removeUnusedInitializers_simplifies first.sound first.sorted)

theorem foldConstants_succeeds (sound : g.Sound) (sorted : Node.Sorted g.nodes)
    (constants : around.constants.Storable) (facts : Scope Facts) (path : String) :
    (s.foldConstants around facts path g).Succeeds g.Simplifies := by
  unfold foldConstants
  split
  · exact .pure ⟨sound, .refl g, sorted⟩
  · obtain ⟨g', hg', simplifies⟩ := Graph.foldConstants_simplifies sound sorted
      (c := { version := s.version, facts := facts, outer := around.constants,
              limit := s.options.sizeThreshold }) constants path
    exact (Succeeds.addNotes _).bind fun _ _ => .ofExcept hg' simplifies

theorem applyRules_succeeds (sound : g.Sound) (sorted : Node.Sorted g.nodes)
    (constants : around.constants.Storable) (facts : Scope Facts) (path : String) :
    (s.applyRules around facts path g).Succeeds (g.Evolves s.options.KeepsNames) := by
  unfold applyRules
  split
  · exact .pure (.refl sound sorted)
  · obtain ⟨taken, continues⟩ :=
      Graph.applyRules_sound sound sorted s.options.rules s.version facts constants path
    refine (Succeeds.addNotes _).bind fun _ _ => (Succeeds.sorted continues.sound).mono ?_
    intro g' simplifies
    exact ⟨simplifies.sound, continues.refines.trans simplifies.reduces.refines, simplifies.sorted,
      fun hc => (continues.reduces hc).trans simplifies.reduces⟩

theorem pass_succeeds (sound : g.Sound) (sorted : Node.Sorted g.nodes)
    (constants : around.constants.Storable) (path : String) :
    (s.pass around path g).Succeeds (g.Evolves s.options.KeepsNames) := by
  unfold pass
  refine (foldConstants_succeeds sound sorted constants _ path).bind fun folded h => ?_
  refine (applyRules_succeeds h.sound h.sorted constants _ path).bind fun changed h' => .pure ?_
  exact (h.evolves.trans h').trans (prune_simplifies s h'.sound h'.sorted).evolves

theorem iterate_succeeds (sound : g.Sound) (sorted : Node.Sorted g.nodes)
    (constants : around.constants.Storable) (path : String) (passes : Nat) :
    (s.iterate around path passes g).Succeeds (g.Evolves s.options.KeepsNames) := by
  induction passes generalizing g with
  | zero =>
      exact (Succeeds.addNotes _).bind fun _ _ => Succeeds.modify.bind fun _ _ =>
        .pure (.refl sound sorted)
  | succ passes ih =>
      refine (pass_succeeds sound sorted constants path).bind fun next h => ?_
      split
      · exact .pure h
      · exact (ih h.sound h.sorted).mono fun g' h' => h.trans h'

theorem simplifyFlat_succeeds (sound : g.Sound) (constants : around.constants.Storable)
    (path : String) : (s.simplifyFlat around path g).Succeeds (g.Evolves s.options.KeepsNames) := by
  unfold simplifyFlat
  obtain ⟨lowered, reduces⟩ := Graph.lowerConstants_sound sound s.version
  refine (Succeeds.sorted lowered).bind fun start h => ?_
  refine (iterate_succeeds h.sound h.sorted constants path _).mono fun g' h' => ?_
  have started : g.Simplifies start := ⟨h.sound, reduces.trans h.reduces, h.sorted⟩
  exact started.evolves.trans h'

/-- A nested graph is made smaller or stays as it is. -/
theorem simplifyNested_returns {simplify : Graph → Simplifying Graph} (sound : g.Sound)
    (h : (simplify g).Succeeds g.Simplifies) (unknownCondition : Bool) (location : String) :
    Returns (simplifyNested simplify around unknownCondition location g) g.Shrinks := by
  have attempt : Yields (do
      let simplified ← simplify g
      Simplifying.ofExcept .malformed (simplified.validate around.names)
      Simplifying.ofExcept .malformed (g.checkInterface simplified)
      return simplified) g.Simplifies :=
    h.yields.bind fun _ hs => .bind_any fun _ => .bind_any fun _ => .pure hs
  unfold simplifyNested
  refine Returns.bind attempt fun e he => ?_
  cases e with
  | error e => exact Returns.modify_bind (.pure ⟨.refl g, sound.regular⟩)
  | ok simplified =>
      have shrinks : g.Shrinks simplified :=
        ⟨(he simplified rfl).reduces, (he simplified rfl).sound.regular⟩
      dsimp only
      split
      · exact Returns.modify_bind (.pure shrinks)
      · exact Returns.pure shrinks

theorem simplifyAllNested_returns {simplify : Surroundings → String → Graph → Simplifying Graph}
    (sound : g.Sound) (sorted : Node.Sorted g.nodes) (constants : around.constants.Storable)
    (h : ∀ (inner : Surroundings) (path : String) (nested : Graph), inner.constants.Storable →
      nested.Sound → (simplify inner path nested).Succeeds nested.Simplifies) (path : String) :
    Returns (s.simplifyAllNested simplify around path g) g.Simplifies := by
  have inner : (around.enter g (s.facts around g)).constants.Storable :=
    sound.storable.constants.inside constants
  unfold simplifyAllNested
  refine Returns.bind (Returns.mapM (S := Node.Revises Graph.Shrinks) fun n hn => ?_) fun ns all =>
    Returns.pure (sound.simplifies_of_nested sorted all)
  exact Node.returns_mapGraphsM fun p hp =>
    simplifyNested_returns (sound.nested hn hp) (h _ _ _ inner (sound.nested hn hp)) _ _

theorem declare_succeeds (sound : g.Sound) (sorted : Node.Sorted g.nodes) :
    (s.declare around g).Succeeds g.Simplifies := by
  unfold declare
  split
  · exact .pure ⟨sound, .refl g, sorted⟩
  · obtain ⟨g', hg', simplifies⟩ :=
      Graph.updateDeclarations_simplifies sound sorted (s.facts around g)
    exact .ofExcept hg' simplifies

/-- A graph is simplified down to any depth without an error.  New names are made only where nested
graphs are left alone. -/
theorem simplifyGraph_succeeds
    (names : s.options.includeSubgraph = false ∨ s.options.KeepsNames) (depth : Nat)
    (sound : g.Sound) (constants : around.constants.Storable) (path : String) :
    (s.simplifyGraph depth around path g).Succeeds (g.Evolves s.options.KeepsNames) := by
  induction depth generalizing around path g with
  | zero =>
      unfold simplifyGraph
      refine (simplifyFlat_succeeds sound constants path).bind fun flat h => ?_
      have declared : (s.declare around flat).Succeeds (g.Evolves s.options.KeepsNames) :=
        (declare_succeeds h.sound h.sorted).mono fun g' h' => h.trans h'.evolves
      split <;> exact declared
  | succ depth ih =>
      unfold simplifyGraph
      refine (simplifyFlat_succeeds sound constants path).bind fun flat h => ?_
      split
      · rename_i here
        have closed : s.options.KeepsNames := names.resolve_left fun off => by simp [off] at here
        refine Succeeds.bind (Succeeds.lift (simplifyAllNested_returns h.sound h.sorted constants
          (fun inner path nested constants sound =>
            (ih sound constants path).mono fun g' h' => h'.simplifies closed) path)) ?_
        intro nested h'
        have pruned := prune_simplifies s h'.sound h'.sorted
        refine (declare_succeeds pruned.sound pruned.sorted).mono fun g' h'' => ?_
        exact h.trans ((h'.trans pruned).trans h'').evolves
      · exact (declare_succeeds h.sound h.sorted).mono fun g' h' => h.trans h'.evolves

end Simplifier
end TensorGraph
