import TensorGraph.Proofs.Evaluation.Follow
import TensorGraph.Proofs.Graph.Edit

/-!
# Runs of redirected graphs

Input:

* a graph, and two names `old` and `new`, the second of which the graph does not define at any depth;
* two scopes that give related values to what the graph captures, where `new` has the value of `old`
  in the second one.

A graph that is redirected from `old` to `new` runs in the second scope as the graph itself does in
the first one.  The proof is by induction over nested graphs, whose nodes follow each other.

Main results:

* `Graph.follows_redirectNested`: redirected nested graphs run alike;
* `Node.isLocal`: what a node makes depends on the values that it reads only;
* `Node.Holds.redirect` and `Node.Holds.rename`: when two names have the same value, nodes may read
  and make either.
-/

namespace TensorGraph

open Tensor (AllAlike Likeness)

variable {R : Tensor → Tensor → Prop} {version : Option Int64} {chance chance' : Generator}
  {σ : String → String}

/-! ## Redirected nodes -/

theorem AttributeValue.nested_self {R : Graph → Graph → Prop} (v : AttributeValue)
    (h : ∀ g ∈ v.graphList, R g g) : v.Nested R v := by
  cases v with
  | graph g => exact .graph (h g List.mem_cons_self)
  | graphs gs => exact .graphs (List.forall₂_same.2 h)
  | _ => exact .plain rfl rfl

namespace Node

variable {R S : Graph → Graph → Prop} {n n' : Node} {old new : String}

theorem reworks_self (h : ∀ p ∈ n.subgraphs, R p.2 p.2) : n.Reworks R n :=
  ⟨rfl, rfl, rfl, List.forall₂_same.2 fun a ha =>
    ⟨a.value, by cases a; rfl, a.value.nested_self fun _ hg => h _ (mem_subgraphs ha hg),
      fun _ => rfl⟩⟩

theorem reworks_redirect (old new : String)
    (h : ∀ p ∈ n.subgraphs, R p.2 (p.2.redirectNested old new)) :
    n.Reworks R (n.redirect old new) := by
  obtain ⟨attributes, heq, all⟩ := revises_mapSubgraphs n (Graph.redirectNested old new)
  have hattributes : (n.redirect old new).attributes = attributes :=
    congrArg Node.attributes heq
  refine ⟨rfl, rfl, rfl, ?_⟩
  rw [hattributes]
  refine forall₂_imp_of_mem all fun a ha a' revises => ?_
  obtain ⟨v, rfl, nested, plain⟩ := revises
  exact ⟨v, rfl, nested.mono fun g hg g' heq => heq ▸ h _ (mem_subgraphs ha hg), plain⟩

/-- Whether a node that draws random numbers has a name of its own, by which its generator is
found. -/
def Settled (version : Option Int64) (n : Node) : Prop :=
  n.Draws version → ∃ name, n.name = some name ∧ name ≠ ""

theorem Settled.displayName (h : n.Settled version) (draws : n.Draws version) (hname : n'.name = n.name)
    : n'.displayName = n.displayName := by
  obtain ⟨name, hn, hne⟩ := h draws
  unfold Node.displayName
  rw [hname, hn]
  simp [hne]

end Node

/-! ## Redirected graphs -/

namespace Graph

/-- Whether two generators are the same for all nodes that draw random numbers. -/
def SameDraws (version : Option Int64) (chance chance' : Generator) (g : Graph) : Prop :=
  ∀ n ∈ g.nodes, n.Draws version → chance.forName n.displayName = chance'.forName n.displayName

theorem everywhere_sameDraws (version : Option Int64) (chance : Generator) (g : Graph) :
    g.Everywhere (SameDraws version chance chance) := by
  induction g using nested_induction with
  | step g ih => exact .intro (fun _ _ _ => rfl) ih

theorem Follows.congr {τ : String → String} {g g' : Graph}
    (h : g.Follows R version chance chance' σ g') (same : ∀ x ∈ g.captures, σ x = τ x) :
    g.Follows R version chance chance' τ g' :=
  ⟨h.interface, h.plan, fun inputs inputs' V W hinputs hsame =>
    h.run inputs inputs' V W hinputs fun x hx => same x hx ▸ hsame x hx⟩

/-- What a graph does not define it is not given. -/
theorem not_given_of_not_mem {g : Graph} {x : String} (h : x ∉ g.definedNames) :
    x ∉ g.inputNames ∧ x ∉ g.initializerNames := by
  rw [mem_definedNames, not_or, not_or] at h
  exact ⟨h.1, h.2.1⟩

section

variable [Likeness R]

/-- A graph runs alike in all scopes that give it the values that it captures. -/
theorem follows_self {g : Graph} (draws : g.Everywhere (SameDraws version chance chance')) :
    g.Follows R version chance chance' id g := by
  induction draws with
  | @intro g here _ ih =>
      have image : g.Image R version chance chance' id g := by
        refine ⟨List.forall₂_same.2 fun n hn => ⟨?_, (List.map_id _).symm, fun _ _ => Iff.rfl⟩,
          List.forall₂_same.2 fun _ _ => rfl, (List.map_id _).symm, fun _ _ => Likeness.rel_refl _,
          fun _ _ _ _ heq => heq, fun _ _ hx => hx, fun x hx => ?_⟩
        · exact ⟨Node.reworks_self fun p hp => ih n hn p hp, (List.map_id _).symm,
            fun _ _ => Iff.rfl, fun x => by simp, here n hn⟩
        · exact not_given_of_not_mem (mem_captures.1 hx).2
      exact image.follows ⟨rfl, List.forall₂_same.2 fun _ _ => ⟨rfl, rfl⟩⟩ fun _ _ => rfl

/-- What reads a captured name in a redirected graph follows what reads it in the graph itself. -/
theorem image_redirectNested {g : Graph} {old new : String} (hold : old ≠ "") (hnew : new ≠ "")
    (fresh : new ∉ g.allDefinitions) (captured : old ∈ g.captures)
    (here : SameDraws version chance chance' g)
    (inside : ∀ n ∈ g.nodes, ∀ p ∈ n.subgraphs,
      p.2.Follows R version chance chance' (substituteName old new) (p.2.redirectNested old new)) :
    g.Image R version chance chance' (substituteName old new) (g.redirectNested old new) := by
  rw [allDefinitions_eq, List.mem_append, not_or, mem_definitions] at fresh
  have hdef := (mem_captures.1 captured).2
  have fixed : ∀ x ∈ g.definedNames, substituteName old new x = x := fun x hx =>
    substituteName_of_ne fun heq => hdef (heq ▸ hx)
  have made : ∀ x ∈ g.produced, x ∈ g.definedNames := fun x hx =>
    mem_definedNames.2 (Or.inr (Or.inr hx))
  have given : ∀ x ∈ g.inputNames, x ∈ g.definedNames := fun x hx => mem_definedNames.2 (Or.inl hx)
  unfold redirectNested
  rw [if_pos (by simpa using captured), replaceUses_eq]
  refine .of_fixed ?_ ?_ rfl (substituteName_of_ne fun heq => hold heq.symm)
    (fun x hx => fixed x (hx.elim (made x) (given x))) (fun x _ hx => ?_) (fun x hx => ?_)
    fun x hx => ?_
  · rw [List.forall₂_map_right_iff, List.forall₂_same]
    intro n hn
    have hinner : new ∉ n.innerNames := fun hi => fresh.2 (mem_innerNames.2 ⟨n, hn, hi⟩)
    exact ⟨⟨Node.reworks_redirect old new (inside n hn), rfl,
      fun x _ => substituteName_eq_empty_iff hold hnew,
      fun x => Node.mem_reads_redirect hold hnew hinner, here n hn⟩, rfl⟩
  · rw [List.forall₂_map_right_iff, List.forall₂_same]
    exact fun _ _ => rfl
  · have hd := hx.elim (made _) (given _)
    by_cases heq : x = old
    · rw [heq, substituteName_self] at hd
      exact absurd hd fresh.1
    · exact substituteName_of_ne heq
  · rw [fixed x hx]
    exact Likeness.rel_refl _
  · have undefined : substituteName old new x ∉ g.definedNames := by
      by_cases heq : x = old
      · rw [heq, substituteName_self]
        exact fresh.1
      · rw [substituteName_of_ne heq]
        exact (mem_captures.1 hx).2
    have := not_given_of_not_mem undefined
    exact this

/-- A redirected graph runs as the graph itself does where the new name has the value of the old one.
-/
theorem follows_redirectNested {g : Graph} {old new : String} (hold : old ≠ "") (hnew : new ≠ "")
    (fresh : new ∉ g.allDefinitions) (draws : g.Everywhere (SameDraws version chance chance')) :
    g.Follows R version chance chance' (substituteName old new) (g.redirectNested old new) := by
  induction draws with
  | @intro g here inside ih =>
      by_cases captured : old ∈ g.captures
      · have image := image_redirectNested hold hnew fresh captured here fun n hn p hp =>
          ih n hn p hp fun hi => by
            rw [allDefinitions_eq, List.mem_append, not_or] at fresh
            exact fresh.2 (mem_innerNames.2 ⟨n, hn, Node.mem_innerNames.2 ⟨p, hp, hi⟩⟩)
        refine image.follows ⟨(sameFrame_redirectNested g old new).inputs, ?_⟩ fun x hx => ?_
        · unfold redirectNested
          rw [if_pos (by simpa using captured), replaceUses_eq, List.forall₂_map_right_iff,
            List.forall₂_same]
          exact fun _ _ => ⟨rfl, rfl⟩
        · exact substituteName_of_ne fun heq =>
            (mem_captures.1 captured).2 (heq ▸ mem_definedNames.2 (Or.inl hx))
      · rw [redirectNested_of_not_mem captured]
        refine (follows_self (.intro here inside)).congr fun x hx => (substituteName_of_ne ?_).symm
        rintro rfl
        exact captured hx

end

end Graph

/-! ## Nodes -/

namespace Node

variable {n : Node} {old new : String} {V : Scope Tensor}

/-- A node makes the same of the same values, whatever chance it is given if it draws nothing. -/
theorem follows_self [Likeness R]
    (draws : n.Draws version → chance.forName n.displayName = chance'.forName n.displayName)
    (inside : ∀ p ∈ n.subgraphs, p.2.Everywhere (Graph.SameDraws version chance chance')) :
    n.Follows R version chance chance' id n :=
  ⟨reworks_self fun p hp => Graph.follows_self (inside p hp), (List.map_id _).symm,
    fun _ _ => Iff.rfl, fun x => by simp, draws⟩

/-- What a node makes depends on the values that it reads only. -/
theorem isLocal (n : Node) : n.Local version chance := fun _ _ _ same yields =>
  (follows_self (fun _ => rfl) fun p _ => Graph.everywhere_sameDraws version chance p.2).yields
    same yields

/-- A node whose reads keep their names follows itself. -/
theorem follows_of_fixed [Likeness R] (inputs : ∀ x ∈ n.inputs, σ x = x)
    (reads : ∀ x ∈ n.reads, σ x = x) : n.Follows R version chance chance σ n := by
  refine ⟨reworks_self fun p hp => ?_, Graph.eq_map_of_fixed inputs,
    fun x hx => by rw [inputs x hx], fun x => ⟨fun hx => ⟨x, hx, reads x hx⟩, ?_⟩, fun _ => rfl⟩
  · exact (Graph.follows_self (Graph.everywhere_sameDraws version chance p.2)).congr
      fun x hx => (reads x (mem_reads.2 (Or.inr ⟨p, hp, hx⟩))).symm
  · rintro ⟨y, hy, rfl⟩
    rwa [reads y hy]

/-- A node that makes the same values under other names of what it reads. -/
theorem follows_redirect [Likeness R] {n' : Node} (hold : old ≠ "") (hnew : new ≠ "")
    (fresh : new ∉ n.innerNames) (outputs : n'.outputs.length = n.outputs.length)
    (heq : n' = { n.redirect old new with outputs := n'.outputs })
    (draws : n.Draws version → chance.forName n.displayName = chance'.forName n'.displayName)
    (inside : ∀ p ∈ n.subgraphs, p.2.Everywhere (Graph.SameDraws version chance chance')) :
    n.Follows R version chance chance' (substituteName old new) n' := by
  have reworks : n.Reworks (Graph.Follows R version chance chance' (substituteName old new))
      (n.redirect old new) := reworks_redirect old new fun p hp =>
    Graph.follows_redirectNested hold hnew (fun hi => fresh (mem_innerNames.2 ⟨p, hp, hi⟩))
      (inside p hp)
  have reads : n'.reads = (n.redirect old new).reads := by
    rw [heq, reads, reads]
    rfl
  refine ⟨⟨?_, ?_, outputs, ?_⟩, ?_, fun x _ => substituteName_eq_empty_iff hold hnew, fun x => ?_,
    draws⟩
  · rw [heq]
    exact reworks.opType
  · rw [heq]
    exact reworks.domain
  · rw [heq]
    exact reworks.attributes
  · rw [heq]
    rfl
  · rw [reads]
    exact mem_reads_redirect hold hnew fresh

theorem rel_substituteName (same : Option.Rel Tensor.Alike (V.get? old) (V.get? new)) (x : String) :
    Option.Rel Tensor.Alike (V.get? x) (V.get? (substituteName old new x)) := by
  by_cases hx : x = old
  · rw [hx, substituteName_self]
    exact same
  · rw [substituteName_of_ne hx]
    exact Tensor.rel_alike_refl _

/-- A node may read another name for the same value. -/
theorem Holds.redirect (h : n.Holds version chance V) (hold : old ≠ "") (hnew : new ≠ "")
    (fresh : new ∉ n.innerNames)
    (same : Option.Rel Tensor.Alike (V.get? old) (V.get? new)) :
    (n.redirect old new).Holds version chance V := by
  obtain ⟨ts, yields, bound⟩ := h
  have follows : n.Follows Tensor.Alike version chance chance (substituteName old new)
      (n.redirect old new) :=
    follows_redirect hold hnew fresh rfl rfl (fun _ => rfl)
      fun p _ => Graph.everywhere_sameDraws _ _ p.2
  obtain ⟨us, yields', alike⟩ := follows.yields (fun x _ => rel_substituteName same x) yields
  exact ⟨us, yields', (bound.alike alike).enough, (bound.alike alike).values⟩

/-- A node may read and make another name for the same value. -/
theorem Holds.rename (h : n.Holds version chance V) (hold : old ≠ "") (hnew : new ≠ "")
    (fresh : new ∉ n.innerNames) (settled : n.Settled version)
    (same : Option.Rel Tensor.Alike (V.get? old) (V.get? new)) :
    (n.rename old new).Holds version chance V := by
  obtain ⟨ts, yields, bound⟩ := h
  have called : n.Draws version → (n.rename old new).displayName = n.displayName := fun hd =>
    settled.displayName hd rfl
  have follows : n.Follows Tensor.Alike version chance chance (substituteName old new)
      (n.rename old new) :=
    follows_redirect hold hnew fresh (List.length_map _) rfl
      (fun hd => congrArg chance.forName (called hd).symm)
      fun p _ => Graph.everywhere_sameDraws _ _ p.2
  obtain ⟨us, yields', alike⟩ := follows.yields (fun x _ => rel_substituteName same x) yields
  have bound' := bound.alike alike
  refine ⟨us, yields', fun x hx => ?_, fun p hp hne => ?_⟩
  · change x ∈ (n.outputs.map (substituteName old new)).drop us.length at hx
    rw [← List.map_drop] at hx
    obtain ⟨y, hy, rfl⟩ := List.mem_map.1 hx
    exact (substituteName_eq_empty_iff hold hnew).2 (bound'.enough y hy)
  · change p ∈ (n.outputs.map (substituteName old new)).zip us at hp
    rw [List.zip_map_left] at hp
    obtain ⟨q, hq, rfl⟩ := List.mem_map.1 hp
    refine Tensor.rel_alike_trans (bound'.values q hq fun heq => hne ?_)
      (rel_substituteName same q.1)
    exact (substituteName_eq_empty_iff hold hnew).2 heq

theorem Settled.redirect (h : n.Settled version) : (n.redirect old new).Settled version := by
  rintro ⟨k, hk, hdraws⟩
  have reworks : n.Reworks (fun _ _ => True) (n.redirect old new) :=
    reworks_redirect old new fun _ _ => trivial
  obtain ⟨operator, hread, related⟩ := Operator.ofNode_reworks reworks.flip version _ hk
  cases related
  exact h ⟨k, hread, hdraws⟩

theorem Settled.rename (h : n.Settled version) : (n.rename old new).Settled version := by
  rintro ⟨k, hk, hdraws⟩
  have reworks : n.Reworks (fun _ _ => True) (n.redirect old new) :=
    reworks_redirect old new fun _ _ => trivial
  have renamed : n.Reworks (fun _ _ => True) (n.rename old new) :=
    ⟨rfl, rfl, List.length_map _, reworks.attributes⟩
  obtain ⟨operator, hread, related⟩ := Operator.ofNode_reworks renamed.flip version _ hk
  cases related
  exact h ⟨k, hread, hdraws⟩

/-- Whether a node holds in a scope, and still does when values get other names. -/
structure Robust (version : Option Int64) (chance : Generator) (V : Scope Tensor) (n : Node) :
    Prop where
  holds : n.Holds version chance V
  settled : n.Settled version

theorem Robust.redirect (h : n.Robust version chance V) (hold : old ≠ "") (hnew : new ≠ "")
    (fresh : new ∉ n.innerNames) (same : Option.Rel Tensor.Alike (V.get? old) (V.get? new)) :
    (n.redirect old new).Robust version chance V :=
  ⟨h.holds.redirect hold hnew fresh same, h.settled.redirect⟩

theorem Robust.rename (h : n.Robust version chance V) (hold : old ≠ "") (hnew : new ≠ "")
    (fresh : new ∉ n.innerNames) (same : Option.Rel Tensor.Alike (V.get? old) (V.get? new)) :
    (n.rename old new).Robust version chance V :=
  ⟨h.holds.rename hold hnew fresh h.settled same, h.settled.rename⟩

end Node
end TensorGraph
