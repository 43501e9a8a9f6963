import Mathlib.Data.List.Find
import TensorGraph.Proofs.Evaluation.Capture
import TensorGraph.Proofs.Operator.Reading

/-!
# Graphs that follow others

Input:

* two graphs whose nodes are, one by one, the same up to the names that they read and make, and up to
  nested graphs that follow each other in the same way (`Graph.Image`);
* a likeness of tensors, and a map from the names of the first graph to those of the second one, under
  which no name becomes that of a value that a node makes.

Algorithm:

* the nodes of both graphs depend on nodes at the same positions, so both are run in the same order;
* between two steps both scopes give related tensors to all available values (`Graph.Tracks`), which
  one step preserves (`Graph.Image.run_step`).

Main results:

* `Graph.Image.runIn`: the runs of both graphs end alike, with related outputs or both with an error;
* `Graph.Image.follows`: so do the runs of nested graphs, in all scopes that are related.
-/

namespace TensorGraph

open Tensor (Likeness)

/-! ## Computations that end alike -/

/-- Whether two computations both have results, which are related, or both fail. -/
inductive EndsAlike {ε ε' α β : Type} (R : α → β → Prop) : Except ε α → Except ε' β → Prop
  | ok {x : α} {y : β} (related : R x y) : EndsAlike R (.ok x) (.ok y)
  | error (e : ε) (e' : ε') : EndsAlike R (.error e) (.error e')

namespace EndsAlike

variable {ε ε' ε₁ ε₂ α β γ δ : Type} {R : α → β → Prop} {S : γ → δ → Prop} {r : Except ε α}
  {r' : Except ε' β}

theorem of_matches (forth : Matches R r r') (back : Matches (flip R) r' r) : EndsAlike R r r' := by
  cases r with
  | ok x =>
      obtain ⟨y, rfl, related⟩ := forth x rfl
      exact .ok related
  | error e =>
      cases r' with
      | ok y =>
          obtain ⟨x, heq, -⟩ := back y rfl
          cases heq
      | error e' => exact .error e e'

/-- Computations of lists that match in both directions. -/
theorem of_matches_all {r : Except ε (List α)} {r' : Except ε' (List β)}
    (forth : Matches (List.Forall₂ R) r r') (back : Matches (List.Forall₂ (flip R)) r' r) :
    EndsAlike (List.Forall₂ R) r r' := by
  refine of_matches forth fun y hy => ?_
  obtain ⟨x, hx, all⟩ := back y hy
  exact ⟨x, hx, all.flip⟩

/-- Computations with related results, if any, that succeed together. -/
theorem of_ok_iff (both : (∃ x, r = .ok x) ↔ ∃ y, r' = .ok y)
    (related : ∀ x y, r = .ok x → r' = .ok y → R x y) : EndsAlike R r r' := by
  cases hr : r with
  | ok x =>
      obtain ⟨y, rfl⟩ := both.1 ⟨x, hr⟩
      exact .ok (related x y hr rfl)
  | error e =>
      cases hr' : r' with
      | ok y =>
          obtain ⟨x, heq⟩ := both.2 ⟨y, hr'⟩
          cases hr.symm.trans heq
      | error e' => exact .error e e'

theorem exists_ok_iff (h : EndsAlike R r r') : (∃ x, r = .ok x) ↔ ∃ y, r' = .ok y := by
  cases h with
  | ok related => simp
  | error e e' => simp

theorem forth (h : EndsAlike R r r') : Matches R r r' := by
  cases h with
  | ok related => exact .ok related
  | error e e' => exact .error

theorem symm (h : EndsAlike R r r') : EndsAlike (flip R) r' r := by
  cases h with
  | ok related => exact .ok related
  | error e e' => exact .error e' e

theorem mono {S : α → β → Prop} (h : EndsAlike R r r') (imp : ∀ x y, R x y → S x y) :
    EndsAlike S r r' := by
  cases h with
  | ok related => exact .ok (imp _ _ related)
  | error e e' => exact .error e e'

theorem back_all {r : Except ε (List α)} {r' : Except ε' (List β)}
    (h : EndsAlike (List.Forall₂ R) r r') : Matches (List.Forall₂ (flip R)) r' r :=
  (h.symm.mono fun _ _ (all : List.Forall₂ R _ _) => all.flip).forth

theorem refl {R : α → α → Prop} (hR : ∀ x, R x x) (r : Except ε α) : EndsAlike R r r := by
  cases r with
  | ok x => exact .ok (hR x)
  | error e => exact .error e e

theorem trans {R' : β → γ → Prop} {S : α → γ → Prop} {r'' : Except ε₁ γ} (h : EndsAlike R r r')
    (h' : EndsAlike R' r' r'') (comp : ∀ x y z, R x y → R' y z → S x z) : EndsAlike S r r'' := by
  cases h with
  | ok related =>
      cases h' with
      | ok related' => exact .ok (comp _ _ _ related related')
  | error e e' =>
      cases h' with
      | error _ e'' => exact .error e e''

theorem bind {f : α → Except ε γ} {f' : β → Except ε' δ} (h : EndsAlike R r r')
    (next : ∀ x y, R x y → EndsAlike S (f x) (f' y)) : EndsAlike S (r >>= f) (r' >>= f') := by
  cases h with
  | ok related => exact next _ _ related
  | error e e' => exact .error e e'

theorem mapError {f : ε → ε₁} {f' : ε' → ε₂} (h : EndsAlike R r r') :
    EndsAlike R (r.mapError f) (r'.mapError f') := by
  cases h with
  | ok related => exact .ok related
  | error e e' => exact .error _ _

theorem mapM {A : γ → δ → Prop} {f : γ → Except ε α} {f' : δ → Except ε' β} {l : List γ}
    {l' : List δ} (all : List.Forall₂ A l l') (each : ∀ a b, A a b → EndsAlike R (f a) (f' b)) :
    EndsAlike (List.Forall₂ R) (l.mapM f) (l'.mapM f') := by
  induction all with
  | nil => exact .ok .nil
  | cons first _ ih =>
      rw [List.mapM_cons, List.mapM_cons]
      exact (each _ _ first).bind fun x y hxy => ih.bind fun xs ys hs => .ok (.cons hxy hs)

end EndsAlike

variable {R : Tensor → Tensor → Prop} {version : Option Int64} {chance chance' : Generator}
  {σ : String → String}

/-! ## Graphs and nodes that follow others -/

theorem Graph.SameInterface.symm {g g' : Graph} (h : g.SameInterface g') : g'.SameInterface g :=
  ⟨h.inputs.symm, (h.outputs.imp fun _ _ same => ⟨same.type.symm, same.shape.symm⟩).flip⟩

/-- Whether a graph runs as another one does where the values that it takes from outside are related,
those in the second scope under other names. -/
structure Graph.Follows (R : Tensor → Tensor → Prop) (version : Option Int64)
    (chance chance' : Generator) (σ : String → String) (g g' : Graph) : Prop where
  interface : g.SameInterface g'
  plan : EndsAlike (fun _ _ => True) (g.plan version) (g'.plan version)
  run : ∀ inputs inputs' V W : Scope Tensor, inputs.Related R inputs' →
    (∀ x ∈ g.captures, Option.Rel R (V.get? x) (W.get? (σ x))) →
      EndsAlike (List.Forall₂ R) (g.runIn version chance inputs V)
        (g'.runIn version chance' inputs' W)

/-- Whether a node draws random numbers that are left to chance. -/
def Node.Draws (version : Option Int64) (n : Node) : Prop :=
  ∃ k, Operator.ofNode version n = .ok (.kernel k) ∧ k.drawsByChance = true

/-- Whether a node applies the operator of another one to other names. -/
structure Node.Follows (R : Tensor → Tensor → Prop) (version : Option Int64)
    (chance chance' : Generator) (σ : String → String) (n n' : Node) : Prop where
  reworks : n.Reworks (Graph.Follows R version chance chance' σ) n'
  inputs : n'.inputs = n.inputs.map σ
  named : ∀ x ∈ n.inputs, σ x = "" ↔ x = ""
  reads : ∀ x, x ∈ n'.reads ↔ ∃ y ∈ n.reads, σ y = x
  draws : n.Draws version → chance.forName n.displayName = chance'.forName n'.displayName

namespace Node.Follows

variable {n n' : Node} {V W : Scope Tensor}

/-- The arguments of nodes that follow each other are related where what they read is. -/
theorem arguments (h : n.Follows R version chance chance' σ n')
    (same : ∀ x ∈ n.reads, Option.Rel R (V.get? x) (W.get? (σ x))) :
    EndsAlike (Inputs.Related R) (n.arguments V) (n'.arguments W) := by
  unfold Node.arguments
  rw [h.inputs]
  have all : List.Forall₂ (fun x y => x ∈ n.inputs ∧ y = σ x) n.inputs (n.inputs.map σ) := by
    rw [List.forall₂_map_right_iff, List.forall₂_same]
    exact fun x hx => ⟨hx, rfl⟩
  refine .mapM all fun x y hxy => ?_
  obtain ⟨hx, rfl⟩ := hxy
  by_cases hne : x = ""
  · rw [if_pos hne, if_pos ((h.named x hx).2 hne)]
    exact .ok .none
  · rw [if_neg hne, if_neg fun heq => hne ((h.named x hx).1 heq)]
    have rel := same x (mem_reads.2 (Or.inl (mem_presentInputs.2 ⟨hx, hne⟩)))
    generalize V.get? x = a at rel ⊢
    generalize W.get? (σ x) = b at rel ⊢
    cases rel with
    | none => exact .error _ _
    | some hab => exact .ok (.some hab)

variable [Likeness R]

/-- The operators of nodes that follow each other make related tensors of related arguments. -/
theorem runNode (h : n.Follows R version chance chance' σ n')
    (same : ∀ x ∈ n.reads, Option.Rel R (V.get? x) (W.get? (σ x))) {operator operator' : Operator}
    (read : Operator.ofNode version n = .ok operator)
    (read' : Operator.ofNode version n' = .ok operator') {args args' : Inputs}
    (alike : args.Related R args') :
    EndsAlike (List.Forall₂ R) (operator.runNode version chance n V args)
      (operator'.runNode version chance' n' W args') := by
  obtain ⟨_, heq, related⟩ := Operator.ofNode_reworks h.reworks version _ read
  cases read'.symm.trans heq
  have nested : ∀ {name : String} {b b' : Graph}, n.graph? name = some b →
      b.Follows R version chance chance' σ b' → ∀ given given' : Scope Tensor,
      given.Related R given' → EndsAlike (List.Forall₂ R) (b.runIn version chance given V)
        (b'.runIn version chance' given' W) := by
    intro name b b' hb follows given given' hgiven
    refine follows.run given given' V W hgiven fun x hx => same x ?_
    exact mem_reads.2 (Or.inr ⟨_, mem_subgraphs_of_graph? hb, hx⟩)
  unfold Operator.runNode
  cases related with
  | kernel k =>
      have generator : k.run (chance.forName n.displayName) args (some n.outputs.length) =
          k.run (chance'.forName n'.displayName) args (some n.outputs.length) := by
        cases hdraws : k.drawsByChance with
        | true => rw [h.draws ⟨k, read, hdraws⟩]
        | false => exact k.run_eq_of_not_drawsByChance hdraws _ _ _ _
      dsimp only
      rw [generator, h.reworks.outputs]
      exact (EndsAlike.of_matches_all (k.run_alike _ _ alike) (k.run_alike _ _ alike.flip)).mapError
  | branch onTrue onFalse =>
      obtain ⟨htrue, hfalse⟩ := Operator.ofNode_branch read
      have htrue := nested htrue onTrue [] [] (.refl _)
      have hfalse := nested hfalse onFalse [] [] (.refl _)
      exact (EndsAlike.of_matches_all (runBranch_alike alike htrue.forth hfalse.forth)
        (runBranch_alike alike.flip htrue.back_all hfalse.back_all)).mapError
  | loop body =>
      have each := nested (Operator.ofNode_loop read) body
      refine (EndsAlike.of_matches_all
        (runLoop_alike alike body.interface body.plan.forth fun given given' hgiven =>
          (each given given' hgiven).forth)
        (runLoop_alike alike.flip body.interface.symm body.plan.symm.forth
          fun given given' hgiven => (each given' given hgiven.flip).back_all)).mapError

/-- Nodes that follow each other make related tensors of related values. -/
theorem yields (h : n.Follows R version chance chance' σ n')
    (same : ∀ x ∈ n.reads, Option.Rel R (V.get? x) (W.get? (σ x))) {ts : List Tensor}
    (hts : n.Yields version chance V ts) :
    ∃ us, n'.Yields version chance' W us ∧ List.Forall₂ R ts us := by
  obtain ⟨operator, args, hread, hargs, hout⟩ := hts
  obtain ⟨operator', hread', -⟩ := Operator.ofNode_reworks h.reworks version _ hread
  obtain ⟨args', hargs', alike⟩ := (h.arguments same).forth _ hargs
  obtain ⟨us, hus, related⟩ := (h.runNode same hread hread' alike).forth ts hout
  exact ⟨us, ⟨operator', args', hread', hargs', hus⟩, related⟩

end Node.Follows

/-! ## Related values -/

section

variable {α β : Type} {S : α → β → Prop}

theorem rel_or {a c : Option α} {b d : Option β} (h : Option.Rel S a b) (h' : Option.Rel S c d) :
    Option.Rel S (a.or c) (b.or d) := by
  cases h with
  | some h => exact .some h
  | none => exact h'

theorem isSome_eq_of_rel {a : Option α} {b : Option β} (h : Option.Rel S a b) :
    a.isSome = b.isSome := by
  cases h <;> rfl

end

/-- Each node has a step in a plan. -/
theorem Graph.StepsAt.exists_step {g : Graph} {order : List Nat} {steps : List (Step version g)}
    (steps_at : StepsAt g order steps) (perm : order.Perm (List.range g.nodes.length)) {n : Node}
    (hn : n ∈ g.nodes) : ∃ s : Step version g, s.node = n := by
  obtain ⟨i, hi⟩ := List.getElem?_of_mem hn
  have hmem : i ∈ order :=
    perm.mem_iff.2 (List.mem_range.2 (List.getElem?_eq_some_iff.1 hi).1)
  obtain ⟨s, -, hs⟩ := exists_right_of_forall₂ steps_at hmem
  exact ⟨s, Option.some.inj (hs.symm.trans hi)⟩

/-- A graph can be planned when its nodes can be ordered and have operators. -/
theorem Graph.exists_plan_iff {g : Graph} : (∃ steps, g.plan version = .ok steps) ↔
    (∃ order, g.topologicalOrder = .ok order) ∧
      ∀ n ∈ g.nodes, ∃ operator, Operator.ofNode version n = .ok operator := by
  constructor
  · rintro ⟨steps, hsteps⟩
    obtain ⟨order, ho, steps_at⟩ := plan_eq_ok hsteps
    refine ⟨⟨order, ho⟩, fun n hn => ?_⟩
    obtain ⟨s, rfl⟩ := steps_at.exists_step (topologicalOrder_eq_ok ho).1 hn
    exact ⟨s.operator, s.read⟩
  · rintro ⟨⟨order, ho⟩, read⟩
    exact exists_plan ho read

/-! ## Graphs of nodes that follow others -/

namespace Node

/-- What outputs add to two scopes is related, when no other name becomes that of an output. -/
theorem rel_get?_bindAll {names : List String} {ts us : List Tensor} {V W : Scope Tensor} {x : String}
    (all : List.Forall₂ R ts us) (named : ∀ o ∈ names, σ o = "" ↔ o = "")
    (apart : ∀ o ∈ names, o ≠ "" → σ x = σ o → x = o)
    (before : (x ∈ (names.zip ts).map Prod.fst → x = "") → Option.Rel R (V.get? x) (W.get? (σ x))) :
    Option.Rel R ((bindAll (names.zip ts) V).get? x)
      ((bindAll ((names.map σ).zip us) W).get? (σ x)) := by
  induction all generalizing names V W with
  | nil =>
      rw [List.zip_nil_right, List.zip_nil_right]
      rw [List.zip_nil_right] at before
      exact before fun h => absurd h List.not_mem_nil
  | @cons t u ts us first _ ih =>
      cases names with
      | nil => exact before fun h => absurd h List.not_mem_nil
      | cons o names =>
          rw [List.zip_cons_cons, List.map_cons, List.zip_cons_cons, bindAll_cons, bindAll_cons]
          rw [List.zip_cons_cons, List.map_cons, List.mem_cons] at before
          refine ih (fun o' ho' => named o' (List.mem_cons_of_mem _ ho'))
            (fun o' ho' => apart o' (List.mem_cons_of_mem _ ho')) fun later => ?_
          dsimp only
          by_cases ho : o = ""
          · rw [if_pos ho, if_pos ((named o List.mem_cons_self).2 ho)]
            exact before fun h => h.elim (fun heq => heq.trans ho) later
          · rw [if_neg ho, if_neg fun heq => ho ((named o List.mem_cons_self).1 heq),
              Scope.get?_bind, Scope.get?_bind]
            by_cases hx : x = o
            · rw [if_pos hx, if_pos (congrArg σ hx)]
              exact .some first
            · rw [if_neg hx, if_neg fun heq => hx (apart o List.mem_cons_self ho heq)]
              exact before fun h => h.elim (fun heq => absurd heq hx) later

end Node

namespace Graph

/-- Whether a graph consists of nodes that follow those of another one, and is given related values,
all under other names.  No name becomes that of a value that a node makes. -/
structure Image (R : Tensor → Tensor → Prop) (version : Option Int64) (chance chance' : Generator)
    (σ : String → String) (g g' : Graph) : Prop where
  nodes : List.Forall₂ (fun n n' => n.Follows R version chance chance' σ n' ∧
    n'.outputs = n.outputs.map σ ∧ ∀ o ∈ n.outputs, σ o = "" ↔ o = "") g.nodes g'.nodes
  outputs : List.Forall₂ (fun o o' => o'.name = σ o.name) g.outputs g'.outputs
  inputs : g'.inputNames = g.inputNames.map σ
  constants : ∀ x ∈ g.definedNames, Option.Rel R (g.constants.get? x) (g'.constants.get? (σ x))
  apart : ∀ o ∈ g.produced, ∀ x, x ∈ g.definedNames ∨ x ∈ g.captures → σ x = σ o → x = o
  given : ∀ x ∈ g.definedNames, σ x ∈ g'.inputNames → x ∈ g.inputNames
  captured : ∀ x ∈ g.captures, σ x ∉ g'.inputNames ∧ σ x ∉ g'.initializerNames

/-- A list stays when all its elements do. -/
theorem eq_map_of_fixed {l : List String} (fixed : ∀ x ∈ l, σ x = x) : l = l.map σ :=
  ((List.map_congr_left fixed).trans (List.map_id l)).symm

/-- A graph is an image when inputs and what nodes make keep their names, and nothing else becomes one
of them. -/
theorem Image.of_fixed {g g' : Graph}
    (nodes : List.Forall₂ (fun n n' => n.Follows R version chance chance' σ n' ∧
      n'.outputs = n.outputs) g.nodes g'.nodes)
    (outputs : List.Forall₂ (fun o o' => o'.name = σ o.name) g.outputs g'.outputs)
    (inputs : g'.inputNames = g.inputNames) (unnamed : σ "" = "")
    (fixed : ∀ x, x ∈ g.produced ∨ x ∈ g.inputNames → σ x = x)
    (apart : ∀ x, x ∈ g.definedNames ∨ x ∈ g.captures →
      σ x ∈ g.produced ∨ σ x ∈ g.inputNames → σ x = x)
    (constants : ∀ x ∈ g.definedNames, Option.Rel R (g.constants.get? x) (g'.constants.get? (σ x)))
    (captured : ∀ x ∈ g.captures, σ x ∉ g'.inputNames ∧ σ x ∉ g'.initializerNames) :
    g.Image R version chance chance' σ g' := by
  have written : ∀ n ∈ g.nodes, ∀ o ∈ n.outputs, σ o = o := by
    intro n hn o ho
    by_cases hne : o = ""
    · rw [hne, unnamed]
    · exact fixed o (Or.inl (mem_produced.2 ⟨n, hn, Node.mem_presentOutputs.2 ⟨ho, hne⟩⟩))
  refine ⟨forall₂_imp_of_mem nodes fun n hn n' h => ⟨h.1, ?_, fun o ho => by rw [written n hn o ho]⟩,
    outputs, inputs.trans (eq_map_of_fixed fun x hx => fixed x (Or.inr hx)), constants,
    fun o ho x hx heq => ?_, fun x hx hin => ?_, captured⟩
  · exact h.2.trans (eq_map_of_fixed (written n hn))
  · rw [fixed o (Or.inl ho)] at heq
    exact (apart x hx (Or.inl (heq ▸ ho))).symm.trans heq
  · rw [inputs] at hin
    rwa [apart x (Or.inl hx) (Or.inr hin)] at hin

/-- Whether two scopes give related tensors to all values that are available when the nodes with some
indexes have run. -/
def Tracks (R : Tensor → Tensor → Prop) (σ : String → String) (g : Graph) (done : List Nat)
    (V W : Scope Tensor) : Prop :=
  ∀ x, g.Available done x → Option.Rel R (V.get? x) (W.get? (σ x))

namespace Image

variable {g g' : Graph} {V W inputs inputs' : Scope Tensor}

/-! ### Orders -/

theorem productions (h : g.Image R version chance chance' σ g') :
    g'.productions = g.productions.map (Prod.map σ id) := by
  have nodes := h.nodes
  have all : ∀ k,
      (g'.nodes.zipIdx k).flatMap (fun p => p.1.presentOutputs.map fun o => (o, p.2)) =
        ((g.nodes.zipIdx k).flatMap fun p => p.1.presentOutputs.map fun o => (o, p.2)).map
          (Prod.map σ id) := by
    generalize g.nodes = ns at nodes ⊢
    generalize g'.nodes = ns' at nodes ⊢
    induction nodes with
    | nil => exact fun _ => rfl
    | @cons n n' _ _ first _ ih =>
        intro k
        obtain ⟨-, outputs, named⟩ := first
        have present : n'.presentOutputs = n.presentOutputs.map σ := by
          unfold Node.presentOutputs
          rw [outputs, List.filter_map]
          congr 1
          refine List.filter_congr fun o ho => ?_
          simp [named o ho]
        rw [List.zipIdx_cons, List.zipIdx_cons, List.flatMap_cons, List.flatMap_cons, ih (k + 1),
          List.map_append]
        simp [present]
  exact all 0

/-- A value has its producer at the same position, under its other name. -/
theorem lastProducer? (h : g.Image R version chance chance' σ g') {x : String}
    (hx : x ∈ g.definedNames ∨ x ∈ g.captures) : g'.lastProducer? (σ x) = g.lastProducer? x := by
  unfold Graph.lastProducer?
  rw [h.productions, ← List.map_reverse, List.find?_map, Option.map_map]
  have same : g.productions.reverse.find? ((fun p => p.1 == σ x) ∘ Prod.map σ id) =
      g.productions.reverse.find? fun p => p.1 == x := by
    refine List.find?_congr fun p hp => ?_
    obtain ⟨n, hn, ho⟩ := mem_productions.1 (List.mem_reverse.1 hp : (p.1, p.2) ∈ g.productions)
    have apart := h.apart p.1 (mem_produced.2 ⟨n, List.mem_of_getElem? hn, ho⟩) x hx
    rw [Bool.eq_iff_iff]
    simp only [Function.comp_apply, Prod.map_fst, beq_iff_eq]
    exact ⟨fun heq => (apart heq.symm).symm, congrArg σ⟩
  rw [same]
  cases g.productions.reverse.find? fun p => p.1 == x <;> rfl

/-- Each node waits for nodes at the same positions. -/
theorem mem_dependencies (h : g.Image R version chance chance' σ g') (i j : Nat) :
    j ∈ g'.dependencies.getD i [] ↔ j ∈ g.dependencies.getD i [] := by
  rw [Graph.mem_dependencies, Graph.mem_dependencies]
  have rel := rel_getElem? h.nodes i
  cases hn : g.nodes[i]? with
  | none =>
      rw [hn] at rel
      generalize g'.nodes[i]? = o' at rel
      cases rel
      simp
  | some n =>
      rw [hn] at rel
      generalize g'.nodes[i]? = o' at rel
      cases rel with
      | @some _ n' follows =>
          have value : ∀ x ∈ n.reads, g'.lastProducer? (σ x) = g.lastProducer? x := fun x hx =>
            h.lastProducer? (reads_subset (List.mem_of_getElem? hn) hx)
          simp only [Option.some.injEq, exists_eq_left', follows.1.reads]
          constructor
          · rintro ⟨_, ⟨x, hx, rfl⟩, hj⟩
            exact ⟨x, hx, (value x hx).symm.trans hj⟩
          · rintro ⟨x, hx, hj⟩
            exact ⟨_, ⟨x, hx, rfl⟩, (value x hx).trans hj⟩

theorem topologicalOrder (h : g.Image R version chance chance' σ g') :
    EndsAlike Eq g.topologicalOrder g'.topologicalOrder := by
  have length := h.nodes.length_eq
  refine .of_matches (fun order ho => ⟨order, ?_, rfl⟩) fun order ho => ⟨order, ?_, rfl⟩
  · exact topologicalOrder_of_same_dependencies length.symm h.mem_dependencies ho
  · exact topologicalOrder_of_same_dependencies length
      (fun i j => (h.mem_dependencies i j).symm) ho

/-- Both graphs can be planned, or none of them. -/
theorem plan (h : g.Image R version chance chance' σ g') :
    EndsAlike (fun steps steps' => ∃ order, StepsAt g order steps ∧ StepsAt g' order steps' ∧
      order.Perm (List.range g.nodes.length) ∧ InOrder g.dependencies [] order)
      (g.plan version) (g'.plan version) := by
  have orders := h.topologicalOrder
  refine .of_ok_iff ?_ fun steps steps' hsteps hsteps' => ?_
  · rw [exists_plan_iff, exists_plan_iff]
    refine and_congr orders.exists_ok_iff ⟨fun read n' hn' => ?_, fun read n hn => ?_⟩
    · obtain ⟨n, hn, follows, -⟩ := exists_left_of_forall₂ h.nodes hn'
      obtain ⟨operator, hread⟩ := read n hn
      obtain ⟨operator', hread', -⟩ := Operator.ofNode_reworks follows.reworks version _ hread
      exact ⟨operator', hread'⟩
    · obtain ⟨n', hn', follows, -⟩ := exists_right_of_forall₂ h.nodes hn
      obtain ⟨operator', hread'⟩ := read n' hn'
      obtain ⟨operator, hread, -⟩ :=
        Operator.ofNode_reworks follows.reworks.flip version _ hread'
      exact ⟨operator, hread⟩
  · obtain ⟨order, ho, steps_at⟩ := plan_eq_ok hsteps
    obtain ⟨order', ho', steps_at'⟩ := plan_eq_ok hsteps'
    obtain ⟨_, heq, rfl⟩ := orders.forth order ho
    cases ho'.symm.trans heq
    obtain ⟨perm, inOrder⟩ := topologicalOrder_eq_ok ho
    exact ⟨order, steps_at, steps_at', perm, inOrder⟩

/-! ### Runs -/

/-- Both graphs are given what they need, or none of them. -/
theorem exists_givenValues_iff (h : g.Image R version chance chance' σ g')
    (hinputs : ∀ x ∈ g.inputNames, Option.Rel R (inputs.get? x) (inputs'.get? (σ x))) :
    (∃ given, g.givenValues inputs = .ok given) ↔
      ∃ given', g'.givenValues inputs' = .ok given' := by
  have names : ∀ (g : Graph) (inputs : Scope Tensor),
      (∃ given, g.givenValues inputs = .ok given) ↔
        ∀ x ∈ g.inputNames, ((inputs.get? x).or (g.constants.get? x)).isSome := by
    intro g inputs
    rw [Graph.exists_givenValues_iff]
    simp [inputNames]
  rw [names, names, h.inputs, List.forall_mem_map]
  refine forall₂_congr fun x hx => ?_
  have hd := mem_definedNames.2 (Or.inl hx)
  rw [isSome_eq_of_rel (rel_or (hinputs x hx) (h.constants x hd))]

/-- Inputs and constants are related. -/
theorem rel_get?_given (h : g.Image R version chance chance' σ g') {given given' : Scope Tensor}
    (hinputs : ∀ x ∈ g.inputNames, Option.Rel R (inputs.get? x) (inputs'.get? (σ x)))
    (hgiven : g.givenValues inputs = .ok given) (hgiven' : g'.givenValues inputs' = .ok given')
    {x : String} (hx : x ∈ g.definedNames) : Option.Rel R (given.get? x) (given'.get? (σ x)) := by
  rw [get?_givenValues hgiven, get?_givenValues hgiven']
  by_cases hin : x ∈ g.inputNames
  · rw [if_pos hin, if_pos (h.inputs ▸ List.mem_map_of_mem hin)]
    exact rel_or (hinputs x hin) (h.constants x hx)
  · rw [if_neg hin, if_neg fun hin' => hin (h.given x hx hin')]
    exact h.constants x hx

/-- At the start, the values that no node makes are related. -/
theorem givenValues (h : g.Image R version chance chance' σ g')
    (hinputs : ∀ x ∈ g.inputNames, Option.Rel R (inputs.get? x) (inputs'.get? (σ x)))
    (houter : ∀ x ∈ g.captures, Option.Rel R (V.get? x) (W.get? (σ x))) :
    EndsAlike (fun given given' => g.Tracks R σ [] (given.inside V) (given'.inside W))
      (g.givenValues inputs) (g'.givenValues inputs') := by
  refine .of_ok_iff (h.exists_givenValues_iff hinputs) fun given given' hgiven hgiven' x hx => ?_
  rw [Scope.get?_inside, Scope.get?_inside]
  rcases hx.1 with hd | hc
  · obtain ⟨t, ht⟩ := exists_get?_givenValues hgiven (hx.given hd)
    have rel := h.rel_get?_given hinputs hgiven hgiven' hd
    rw [ht] at rel ⊢
    generalize given'.get? (σ x) = o' at rel ⊢
    cases rel with
    | some related => exact .some related
  · have hd := (mem_captures.1 hc).2
    rw [mem_definedNames, not_or, not_or] at hd
    rw [get?_givenValues_eq_none hgiven ⟨hd.1, hd.2.1⟩,
      get?_givenValues_eq_none hgiven' (h.captured x hc)]
    exact houter x hc

variable [Likeness R]

/-- A step keeps the available values related. -/
theorem run_step (h : g.Image R version chance chance' σ g') {done : List Nat} {i : Nat}
    {s : Step version g} {s' : Step version g'} (hi : g.nodes[i]? = some s.node)
    (hi' : g'.nodes[i]? = some s'.node) (deps : ∀ j ∈ g.dependencies.getD i [], j ∈ done)
    (tracks : g.Tracks R σ done V W) :
    EndsAlike (g.Tracks R σ (done ++ [i])) (s.run chance V) (s'.run chance' W) := by
  obtain ⟨follows, outputs, named⟩ : s.node.Follows R version chance chance' σ s'.node ∧
      s'.node.outputs = s.node.outputs.map σ ∧ ∀ o ∈ s.node.outputs, σ o = "" ↔ o = "" := by
    have rel := rel_getElem? h.nodes i
    rw [hi, hi'] at rel
    cases rel with
    | some related => exact related
  have reads : ∀ x ∈ s.node.reads, Option.Rel R (V.get? x) (W.get? (σ x)) := fun x hx =>
    tracks x (available_of_mem_reads hi deps hx)
  unfold Step.run
  refine (follows.arguments reads).bind fun args args' alike => ?_
  refine (follows.runNode reads s.read s'.read alike).mapError.bind fun ts us all => ?_
  have enough : ((s'.node.outputs.drop us.length).all fun x => x = "") =
      (s.node.outputs.drop ts.length).all fun x => x = "" := by
    rw [outputs, ← List.map_drop, all.length_eq, Bool.eq_iff_iff]
    simp only [List.all_eq_true, List.forall_mem_map, decide_eq_true_eq]
    exact forall₂_congr fun x hx => named x (List.mem_of_mem_drop hx)
  unfold Node.bindOutputs
  rw [enough]
  split
  · rename_i hall
    have present : ∀ x ∈ s.node.outputs.drop ts.length, x = "" := fun x hx =>
      of_decide_eq_true (List.all_eq_true.1 hall x hx)
    refine .ok fun x hx => ?_
    rw [outputs]
    refine Node.rel_get?_bindAll all named (fun o ho hne => ?_) fun omitted => ?_
    · exact h.apart o (mem_produced.2 ⟨s.node, List.mem_of_getElem? hi,
        Node.mem_presentOutputs.2 ⟨ho, hne⟩⟩) x hx.1
    · rcases hx.of_append hi with hout | hx
      · obtain ⟨t, ht⟩ := Node.exists_value_of_enough present hout
        exact absurd (omitted (List.mem_map_of_mem (f := Prod.fst) ht))
          (Node.mem_presentOutputs.1 hout).2
      · exact tracks x hx
  · exact .error _ _

/-- All steps do. -/
theorem foldlM_run (h : g.Image R version chance chance' σ g') {done order : List Nat}
    {steps : List (Step version g)} {steps' : List (Step version g')}
    (steps_at : StepsAt g order steps) (steps_at' : StepsAt g' order steps')
    (inOrder : InOrder g.dependencies done order) (tracks : g.Tracks R σ done V W) :
    EndsAlike (g.Tracks R σ (done ++ order)) (steps.foldlM (fun scope s => s.run chance scope) V)
      (steps'.foldlM (fun scope s => s.run chance' scope) W) := by
  induction steps_at generalizing done steps' V W with
  | nil =>
      cases steps_at'
      rw [List.append_nil]
      exact .ok tracks
  | @cons i s rest ss hi _ ih =>
      cases steps_at' with
      | @cons _ s' _ ss' hi' later' =>
          obtain ⟨-, deps, later⟩ := inOrder
          rw [List.foldlM_cons, List.foldlM_cons]
          refine (h.run_step hi hi' deps tracks).bind fun V' W' tracks' => ?_
          have := ih later' later tracks'
          rwa [List.append_assoc] at this

/-- Both runs end alike. -/
theorem runIn (h : g.Image R version chance chance' σ g')
    (hinputs : ∀ x ∈ g.inputNames, Option.Rel R (inputs.get? x) (inputs'.get? (σ x)))
    (houter : ∀ x ∈ g.captures, Option.Rel R (V.get? x) (W.get? (σ x))) :
    EndsAlike (List.Forall₂ R) (g.runIn version chance inputs V)
      (g'.runIn version chance' inputs' W) := by
  rw [runIn_eq, runIn_eq]
  unfold valuesIn
  simp only [bind_assoc]
  refine h.plan.bind fun steps steps' planned => ?_
  obtain ⟨order, steps_at, steps_at', perm, inOrder⟩ := planned
  refine (h.givenValues hinputs houter).bind fun given given' start => ?_
  refine (h.foldlM_run steps_at steps_at' inOrder start).bind fun F F' tracks => ?_
  refine .mapM (forall₂_imp_of_mem h.outputs fun o ho o' name => And.intro ho name)
    fun o o' ho => ?_
  have rel := tracks o.name (available_of_perm perm (outputs_subset ho.1))
  rw [ho.2]
  generalize F.get? o.name = a at rel ⊢
  generalize F'.get? (σ o.name) = b at rel ⊢
  cases rel with
  | some related => exact .ok related
  | none => exact .error _ _

/-- A graph with the same inputs follows the other one. -/
theorem follows (h : g.Image R version chance chance' σ g') (interface : g.SameInterface g')
    (fixed : ∀ x ∈ g.inputNames, σ x = x) : g.Follows R version chance chance' σ g' :=
  ⟨interface, h.plan.mono fun _ _ _ => trivial, fun _ _ _ _ hinputs houter =>
    h.runIn (fun x hx => (fixed x hx).symm ▸ hinputs x) houter⟩

end Image
end Graph
end TensorGraph
