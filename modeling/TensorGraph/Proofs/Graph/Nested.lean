import TensorGraph.Proofs.Graph.Validity
import Mathlib.Data.List.Forall2

/-!
# Nodes with changed nested graphs

Input:

* a node, and a node that differs from it in its nested graphs only, which are related to those of
  the first one.

Results:

* the nested graphs of both are related in pairs (`Node.Nested.subgraphs`);
* a control-flow node stays one when the relation keeps the numbers of inputs and outputs
  (`Node.Nested.checkControlFlow`);
* changing each nested graph by a function gives such a node (`Node.revises_mapSubgraphs`).
-/

namespace TensorGraph

/-! ## Control flow -/

namespace Node

/-- What a control-flow node needs. -/
structure HasBranches (n : Node) : Prop where
  branches : n.opType = "If" →
    ∃ a b, n.graph? "then_branch" = some a ∧ n.graph? "else_branch" = some b ∧
      a.outputs.length = n.outputs.length ∧ b.outputs.length = n.outputs.length ∧
      a.inputs = [] ∧ b.inputs = []
  body : n.opType = "Loop" →
    ∃ body, n.graph? "body" = some body ∧ body.inputs.length = n.inputs.length - 2 + 2 ∧
      n.inputs.length - 2 + 1 ≤ body.outputs.length ∧
      body.outputs.length = n.outputs.length + 1

theorem checkControlFlow_eq_ok_iff {n : Node} :
    n.checkControlFlow = .ok () ↔ (n.isDefaultDomain → n.HasBranches) := by
  unfold checkControlFlow
  by_cases hd : n.isDefaultDomain
  · simp only [hd, Bool.not_true, Bool.false_eq_true, if_false, forall_const]
    by_cases hif : n.opType = "If"
    · have hloop : n.opType ≠ "Loop" := by simp [hif]
      simp only [hif, if_true]
      cases ha : n.graph? "then_branch" with
      | none =>
          refine ⟨fun h => (by cases h), fun h => ?_⟩
          obtain ⟨a, b, hsome, -⟩ := h.branches hif
          rw [ha] at hsome
          cases hsome
      | some a =>
          cases hb : n.graph? "else_branch" with
          | none =>
              refine ⟨fun h => (by cases h), fun h => ?_⟩
              obtain ⟨a, b, -, hsome, -⟩ := h.branches hif
              rw [hb] at hsome
              cases hsome
          | some b =>
              simp only
              constructor
              · intro h
                split at h
                · cases h
                · split at h
                  · cases h
                  · rename_i lengths inputs
                    simp only [ne_eq, not_or, Decidable.not_not] at lengths
                    simp only [Bool.or_eq_true, Bool.not_eq_true', List.isEmpty_eq_false_iff,
                      not_or, ne_eq, Decidable.not_not] at inputs
                    exact ⟨fun _ => ⟨a, b, ha, hb, lengths.1, lengths.2, inputs.1, inputs.2⟩,
                      fun h => absurd h hloop⟩
              · intro h
                obtain ⟨a', b', ha', hb', la, lb, ia, ib⟩ := h.branches hif
                rw [ha] at ha'
                rw [hb] at hb'
                cases ha'
                cases hb'
                simp [la, lb, ia, ib]
    · simp only [hif, if_false]
      by_cases hloop : n.opType = "Loop"
      · simp only [hloop, if_true]
        cases hbody : n.graph? "body" with
        | none =>
            refine ⟨fun h => (by cases h), fun h => ?_⟩
            obtain ⟨body, hsome, -⟩ := h.body hloop
            rw [hbody] at hsome
            cases hsome
        | some body =>
            simp only
            constructor
            · intro h
              split at h
              · cases h
              · split at h
                · cases h
                · rename_i inputs outputs
                  simp only [ne_eq, Decidable.not_not] at inputs
                  simp only [not_or, Nat.not_lt, ne_eq, Decidable.not_not] at outputs
                  exact ⟨fun h => absurd h hif, fun _ => ⟨body, hbody, inputs, outputs.1, by omega⟩⟩
            · intro h
              obtain ⟨body', hbody', inputs, least, outputs⟩ := h.body hloop
              rw [hbody] at hbody'
              cases hbody'
              have : ¬ (body.outputs.length < n.inputs.length - 2 + 1 ∨
                  body.outputs.length - 1 ≠ n.outputs.length) := by omega
              rw [if_neg (by simp [inputs]), if_neg this]
      · simp only [hloop, if_false]
        exact ⟨fun _ => ⟨fun h => absurd h hif, fun h => absurd h hloop⟩, fun _ => trivial⟩
  · simp [hd]

/-- Other operators are no control flow. -/
theorem checkControlFlow_of_ne {n : Node} (hif : n.opType ≠ "If") (hloop : n.opType ≠ "Loop") :
    n.checkControlFlow = .ok () :=
  checkControlFlow_eq_ok_iff.2 fun _ => ⟨fun h => absurd h hif, fun h => absurd h hloop⟩

end Node

/-! ## Changed nested graphs -/

/-- Related lists stay related when a relation is replaced on the elements of the first one. -/
theorem forall₂_imp_of_mem {α β : Type} {R S : α → β → Prop} {l : List α} {l' : List β}
    (h : List.Forall₂ R l l') (imp : ∀ a ∈ l, ∀ b, R a b → S a b) : List.Forall₂ S l l' := by
  induction h with
  | nil => exact .nil
  | cons first _ ih =>
      exact .cons (imp _ List.mem_cons_self _ first)
        (ih fun a ha => imp a (List.mem_cons_of_mem _ ha))

theorem exists_right_of_forall₂ {α β : Type} {R : α → β → Prop} {l : List α} {l' : List β}
    (h : List.Forall₂ R l l') {a : α} (ha : a ∈ l) : ∃ b ∈ l', R a b := by
  induction h with
  | nil => cases ha
  | cons first _ ih =>
      rcases List.mem_cons.1 ha with rfl | ha
      · exact ⟨_, List.mem_cons_self, first⟩
      · obtain ⟨b, hb, hR⟩ := ih ha
        exact ⟨b, List.mem_cons_of_mem _ hb, hR⟩

theorem exists_left_of_forall₂ {α β : Type} {R : α → β → Prop} {l : List α} {l' : List β}
    (h : List.Forall₂ R l l') {b : β} (hb : b ∈ l') : ∃ a ∈ l, R a b := by
  obtain ⟨a, ha, hR⟩ := exists_right_of_forall₂ h.flip hb
  exact ⟨a, ha, hR⟩

theorem eq_map_of_forall₂ {α β : Type} {f : α → β} {l : List α} {l' : List β}
    (all : List.Forall₂ (fun a b => b = f a) l l') : l' = l.map f :=
  List.forall₂_eq_eq_eq ▸ List.forall₂_map_right_iff.2 all.flip

/-- Whether an attribute's value differs from another one in its graphs only, which are related. -/
inductive AttributeValue.Nested (R : Graph → Graph → Prop) :
    AttributeValue → AttributeValue → Prop
  | graph {g g' : Graph} (h : R g g') : Nested R (.graph g) (.graph g')
  | graphs {gs gs' : List Graph} (h : List.Forall₂ R gs gs') : Nested R (.graphs gs) (.graphs gs')
  | plain {v v' : AttributeValue} (h : v.graphList = []) (h' : v'.graphList = []) : Nested R v v'

/-- Whether an attribute has the same name as another one, and graphs that are related. -/
structure Attribute.Nested (R : Graph → Graph → Prop) (a a' : Attribute) : Prop where
  name : a'.name = a.name
  value : a.value.Nested R a'.value

/-- Whether a node applies the same operator as another one, with attributes of the same names that
hold related graphs. -/
structure Node.Nested (R : Graph → Graph → Prop) (n n' : Node) : Prop where
  opType : n'.opType = n.opType
  domain : n'.domain = n.domain
  attributes : List.Forall₂ (Attribute.Nested R) n.attributes n'.attributes

/-- Whether an attribute differs from another one in its graphs only, which are related. -/
def Attribute.Revises (R : Graph → Graph → Prop) (a a' : Attribute) : Prop :=
  ∃ v, a' = { a with value := v } ∧ a.value.Nested R v ∧ (a.value.graphList = [] → v = a.value)

/-- Whether a node differs from another one in its nested graphs only, which are related. -/
def Node.Revises (R : Graph → Graph → Prop) (n n' : Node) : Prop :=
  ∃ attributes, n' = { n with attributes := attributes } ∧
    List.Forall₂ (Attribute.Revises R) n.attributes attributes

theorem Attribute.Revises.nested {R : Graph → Graph → Prop} {a a' : Attribute}
    (h : a.Revises R a') : a.Nested R a' := by
  obtain ⟨v, rfl, nested, -⟩ := h
  exact ⟨rfl, nested⟩

theorem Node.Revises.nested {R : Graph → Graph → Prop} {n n' : Node} (h : n.Revises R n') :
    n.Nested R n' := by
  obtain ⟨attributes, rfl, all⟩ := h
  exact ⟨rfl, rfl, all.imp fun _ _ => Attribute.Revises.nested⟩

theorem AttributeValue.Nested.graphList {R : Graph → Graph → Prop} {v v' : AttributeValue}
    (h : v.Nested R v') : List.Forall₂ R v.graphList v'.graphList := by
  cases h with
  | graph h => exact .cons h .nil
  | graphs h => exact h
  | plain h h' =>
      rw [h, h']
      exact .nil

theorem AttributeValue.Nested.mono {R S : Graph → Graph → Prop} {v v' : AttributeValue}
    (h : v.Nested R v') (imp : ∀ g ∈ v.graphList, ∀ g', R g g' → S g g') : v.Nested S v' := by
  cases h with
  | graph h => exact .graph (imp _ (by simp [AttributeValue.graphList]) _ h)
  | graphs h => exact .graphs (forall₂_imp_of_mem h imp)
  | plain h h' => exact .plain h h'

namespace Node

variable {R S : Graph → Graph → Prop} {n n' : Node}

theorem mem_subgraphs {a : Attribute} {g : Graph} (ha : a ∈ n.attributes)
    (hg : g ∈ a.value.graphList) : (a.name, g) ∈ n.subgraphs := by
  simp only [subgraphs, List.mem_flatMap, List.mem_map]
  exact ⟨a, ha, g, hg, rfl⟩

/-- Two nested graphs at the same place. -/
def SamePlace (R : Graph → Graph → Prop) (p p' : String × Graph) : Prop := p.1 = p'.1 ∧ R p.2 p'.2

namespace Nested

/-- The nested graphs are related in pairs. -/
theorem subgraphs (h : Nested R n n') :
    List.Forall₂ (SamePlace R) n.subgraphs n'.subgraphs := by
  unfold Node.subgraphs
  refine List.rel_flatMap h.attributes ?_
  rintro a a' ⟨name, value⟩
  rw [List.forall₂_map_left_iff, List.forall₂_map_right_iff]
  exact value.graphList.imp fun _ _ hR => ⟨name.symm, hR⟩

theorem exists_right (h : Nested R n n') {p : String × Graph} (hp : p ∈ n.subgraphs) :
    ∃ p' ∈ n'.subgraphs, R p.2 p'.2 := by
  obtain ⟨p', hp', -, hR⟩ := exists_right_of_forall₂ h.subgraphs hp
  exact ⟨p', hp', hR⟩

theorem exists_left (h : Nested R n n') {p' : String × Graph} (hp : p' ∈ n'.subgraphs) :
    ∃ p ∈ n.subgraphs, R p.2 p'.2 := by
  obtain ⟨p, hp, -, hR⟩ := exists_left_of_forall₂ h.subgraphs hp
  exact ⟨p, hp, hR⟩

theorem mono (h : Nested R n n') (imp : ∀ p ∈ n.subgraphs, ∀ g', R p.2 g' → S p.2 g') :
    Nested S n n' := by
  refine ⟨h.opType, h.domain, forall₂_imp_of_mem h.attributes fun a ha a' hR => ?_⟩
  exact ⟨hR.name, hR.value.mono fun g hg => imp (a.name, g) (mem_subgraphs ha hg)⟩

/-- The graph in an attribute is related to that in the attribute with the same name. -/
theorem graph? (h : Nested R n n') {name : String} {g : Graph} (hg : n.graph? name = some g) :
    ∃ g', n'.graph? name = some g' ∧ R g g' := by
  have : ∀ {as as' : List Attribute}, List.Forall₂ (Attribute.Nested R) as as' →
      (as.find? fun a => a.name == name).map Attribute.value = some (.graph g) →
      ∃ g', (as'.find? fun a => a.name == name).map Attribute.value = some (.graph g') ∧
        R g g' := by
    intro as as' all
    induction all with
    | nil => simp
    | cons first _ ih =>
        rename_i a a' _ _ _
        obtain ⟨ha', hv⟩ := first
        by_cases ha : a.name = name
        · simp only [List.find?_cons, ha', ha, beq_self_eq_true, Option.map_some,
            Option.some.injEq]
          intro heq
          rw [heq] at hv
          generalize a'.value = v at hv
          cases hv with
          | graph hR => exact ⟨_, rfl, hR⟩
          | plain none => cases none
        · simpa only [List.find?_cons, ha', beq_eq_false_iff_ne.2 ha] using ih
  unfold Node.graph? attribute? at hg ⊢
  split at hg
  · cases hg
    rename_i heq
    obtain ⟨g', heq', hR⟩ := this h.attributes heq
    exact ⟨g', by rw [heq'], hR⟩
  · cases hg

/-- A control-flow node stays one when the numbers of its inputs and outputs, and those of its
nested graphs, stay the same. -/
theorem checkControlFlow (h : Nested R n n') (inputs : n'.inputs.length = n.inputs.length)
    (outputs : n'.outputs.length = n.outputs.length)
    (keep : ∀ g g', R g g' →
      g'.inputs.length = g.inputs.length ∧ g'.outputs.length = g.outputs.length)
    (control : n.checkControlFlow = .ok ()) : n'.checkControlFlow = .ok () := by
  rw [checkControlFlow_eq_ok_iff] at control ⊢
  have hdomain : n'.isDefaultDomain = n.isDefaultDomain := by
    unfold isDefaultDomain
    rw [h.domain]
  rw [hdomain]
  intro hd
  obtain ⟨branches, body⟩ := control hd
  constructor
  · intro hif
    obtain ⟨a, b, ha, hb, la, lb, ia, ib⟩ := branches (h.opType ▸ hif)
    obtain ⟨a', ha', hRa⟩ := h.graph? ha
    obtain ⟨b', hb', hRb⟩ := h.graph? hb
    obtain ⟨ia', la'⟩ := keep a a' hRa
    obtain ⟨ib', lb'⟩ := keep b b' hRb
    refine ⟨a', b', ha', hb', by omega, by omega, ?_, ?_⟩
    · exact List.eq_nil_of_length_eq_zero (by rw [ia', ia]; rfl)
    · exact List.eq_nil_of_length_eq_zero (by rw [ib', ib]; rfl)
  · intro hloop
    obtain ⟨g, hg, hin, hleast, hout⟩ := body (h.opType ▸ hloop)
    obtain ⟨g', hg', hR⟩ := h.graph? hg
    obtain ⟨hin', hout'⟩ := keep g g' hR
    exact ⟨g', hg', by omega, by omega, by omega⟩

theorem innerNames_eq (h : Nested R n n')
    (keep : ∀ g g', R g g' → g'.allDefinitions = g.allDefinitions) :
    n'.innerNames = n.innerNames := by
  have : ∀ {l l' : List (String × Graph)}, List.Forall₂ (SamePlace R) l l' →
      l'.flatMap (fun p => p.2.allDefinitions) = l.flatMap fun p => p.2.allDefinitions := by
    intro l l' all
    induction all with
    | nil => rfl
    | cons first _ ih => rw [List.flatMap_cons, List.flatMap_cons, keep _ _ first.2, ih]
  exact this h.subgraphs

theorem count_innerNames_le (h : Nested R n n') {x : String}
    (keep : ∀ g g', R g g' → g'.allDefinitions.count x ≤ g.allDefinitions.count x) :
    n'.innerNames.count x ≤ n.innerNames.count x := by
  have : ∀ {l l' : List (String × Graph)}, List.Forall₂ (SamePlace R) l l' →
      (l'.flatMap fun p => p.2.allDefinitions).count x ≤
        (l.flatMap fun p => p.2.allDefinitions).count x := by
    intro l l' all
    induction all with
    | nil => exact Nat.le_refl _
    | cons first _ ih =>
        have := keep _ _ first.2
        simp only [List.flatMap_cons, List.count_append]
        omega
  exact this h.subgraphs

end Nested

/-! ## Changing each nested graph -/

theorem revises_mapSubgraphs (n : Node) (f : Graph → Graph) :
    Revises (fun g g' => g' = f g) n (n.mapSubgraphs fun g _ => f g) := by
  refine ⟨_, rfl, ?_⟩
  have all : ∀ (as : List Attribute) (F : { a // a ∈ as } → Attribute),
      (∀ a h, Attribute.Revises (fun g g' => g' = f g) a (F ⟨a, h⟩)) →
      List.Forall₂ (Attribute.Revises fun g g' => g' = f g) as (as.attach.map F) := by
    intro as F each
    rw [List.forall₂_iff_get]
    refine ⟨by simp, fun i h₁ h₂ => ?_⟩
    simpa using each _ _
  apply all
  intro a ha
  refine ⟨_, rfl, ?_⟩
  split
  · rename_i g hv
    simp only [hv]
    exact ⟨.graph rfl, fun none => by cases none⟩
  · rename_i gs hv
    simp only [hv]
    refine ⟨.graphs ?_, ?_⟩
    · rw [List.forall₂_iff_get]
      exact ⟨by simp, fun i h₁ h₂ => by simp⟩
    · rintro (rfl : gs = [])
      rfl
  · rename_i graph graphs
    have none : a.value.graphList = [] := by
      cases hv : a.value <;> first | rfl | simp_all
    exact ⟨.plain none none, fun _ => rfl⟩

end Node
end TensorGraph
