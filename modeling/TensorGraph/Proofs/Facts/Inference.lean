import Mathlib
import TensorGraph.Facts.Propagation
import TensorGraph.Proofs.Graph.Order

/-!
# What inference makes of declarations

Input:

* a graph whose nodes have distinct outputs, and the facts of the graphs around it.

Algorithm:

* facts are ordered by what is known (`Facts.Below`); a declaration adds to what is known and takes
  nothing back;
* the nodes are visited in order, and what follows for an output is completed from its declarations
  (`Graph.infer_eq`).

Main results:

* `Facts.foldl_refine_fills`: declarations that are filled in with what is known of a value in the
  end give the same again;
* `Graph.foldl_inferNode_congr`: graphs with the same nodes have the same facts if their
  declarations give the same for each value.
-/

namespace TensorGraph

/-! ## What is known of a value -/

/-- Whether a dimension is another one as far as it is known. -/
def Dim.Below (x y : Dim) : Prop := x = .unknown ∨ x = y

/-- A dimension, or another one if it is not known. -/
def Dim.orElse (x y : Dim) : Dim := if x = .unknown then y else x

theorem Dim.below_orElse (x y : Dim) : x.Below (x.orElse y) := by
  grind [Dim.Below, Dim.orElse]

/-- Filling in a dimension of which more is known gives more, up to what is known at last. -/
theorem Dim.Below.orElse {x x' y z : Dim} (h : x.Below x') (h' : x'.Below z)
    (hy : (x.orElse y).Below z) :
    (x.orElse y).Below (x'.orElse y) ∧ (x'.orElse y).Below z := by
  grind [Dim.Below, Dim.orElse]

theorem Dim.Below.eq_orElse {x z : Dim} (h : x.Below z) : x.orElse z = z := by
  grind [Dim.Below, Dim.orElse]

/-- Shapes of the same rank, one of which is the other one as far as it is known. -/
def DimsBelow (s t : List Dim) : Prop := List.Forall₂ Dim.Below s t

/-- The dimensions of a shape, those that are not known from another one. -/
def fillDims (s d : List Dim) : List Dim := (s.zip d).map fun (x, y) => Dim.orElse x y

theorem fillDims_cons (x y : Dim) (s d : List Dim) :
    fillDims (x :: s) (y :: d) = x.orElse y :: fillDims s d := rfl

theorem DimsBelow.refl (s : List Dim) : DimsBelow s s :=
  List.forall₂_same.2 fun _ _ => Or.inr rfl

theorem DimsBelow.antisymm {s t : List Dim} (h : DimsBelow s t) (h' : DimsBelow t s) : s = t := by
  induction h with
  | nil => rfl
  | @cons x y s t head tail ih =>
      cases h' with
      | cons head' tail' =>
          have same : x = y := by grind [Dim.Below]
          rw [same, ih tail']

theorem DimsBelow.trans {s t u : List Dim} (h : DimsBelow s t) (h' : DimsBelow t u) :
    DimsBelow s u := by
  induction h generalizing u with
  | nil => exact h'
  | @cons x y s t head tail ih =>
      cases h' with
      | @cons _ z _ u head' tail' =>
          have bound : x.Below z := by grind [Dim.Below]
          exact .cons bound (ih tail')

theorem DimsBelow.length_eq {s t : List Dim} (h : DimsBelow s t) : s.length = t.length :=
  List.Forall₂.length_eq h

theorem dimsBelow_fillDims {s d : List Dim} (h : s.length = d.length) :
    DimsBelow s (fillDims s d) := by
  induction s generalizing d with
  | nil => exact .nil
  | cons x s ih =>
      cases d with
      | nil => cases h
      | cons y d => exact .cons (x.below_orElse y) (ih (Nat.succ.inj h))

theorem DimsBelow.fillDims_eq {s t : List Dim} (h : DimsBelow s t) : fillDims s t = t := by
  induction h with
  | nil => rfl
  | cons head tail ih => rw [fillDims_cons, head.eq_orElse, ih]

theorem DimsBelow.fillDims {s s' d t : List Dim} (h : DimsBelow s s') (h' : DimsBelow s' t)
    (length : s.length = d.length) (filled : DimsBelow (fillDims s d) t) :
    DimsBelow (TensorGraph.fillDims s d) (TensorGraph.fillDims s' d) ∧
      DimsBelow (TensorGraph.fillDims s' d) t := by
  induction h generalizing d t with
  | nil => exact ⟨.nil, by cases h'; exact .nil⟩
  | cons head tail ih =>
      cases d with
      | nil => cases length
      | cons y d =>
          cases h' with
          | cons head' tail' =>
              cases filled with
              | cons first rest =>
                  have one := head.orElse head' first
                  have all := ih tail' (Nat.succ.inj length) rest
                  exact ⟨.cons one.1 all.1, .cons one.2 all.2⟩

/-- The same if nothing was known before. -/
theorem DimsBelow.fillDims_declared {s d t : List Dim} (h : DimsBelow s t)
    (declared : DimsBelow d t) :
    DimsBelow d (TensorGraph.fillDims s d) ∧ DimsBelow (TensorGraph.fillDims s d) t := by
  induction h generalizing d with
  | nil => exact ⟨by cases declared; exact .nil, by cases declared; exact .nil⟩
  | cons head tail ih =>
      cases declared with
      | cons first rest =>
          have one := Dim.Below.orElse (Or.inl rfl) head first
          have all := ih rest
          exact ⟨.cons one.1 all.1, .cons one.2 all.2⟩

/-- Whether a shape is another one as far as it is known. -/
inductive ShapeBelow : Option (List Dim) → Option (List Dim) → Prop where
  | unknown {s : Option (List Dim)} : ShapeBelow none s
  | known {s t : List Dim} (dims : DimsBelow s t) : ShapeBelow (some s) (some t)

/-- The shape that is known when another one was declared. -/
def refineShape (s d : Option (List Dim)) : Option (List Dim) :=
  match s, d with
  | some s, some d => if s.length = d.length then some (fillDims s d) else some s
  | some s, none => some s
  | none, d => d

@[simp]
theorem refineShape_none (s : Option (List Dim)) : refineShape s none = s := by
  cases s <;> rfl

theorem refineShape_eq_none {s d : Option (List Dim)} (h : refineShape s d = none) : d = none := by
  cases s with
  | none => exact h
  | some s =>
      cases d with
      | none => rfl
      | some d =>
          dsimp only [refineShape] at h
          split at h <;> cases h

namespace ShapeBelow

variable {a b c d : Option (List Dim)}

theorem refl (a : Option (List Dim)) : ShapeBelow a a := by
  cases a with
  | none => exact .unknown
  | some s => exact .known (.refl s)

theorem eq_none (h : ShapeBelow a b) (unknown : b = none) : a = none := by
  subst unknown
  cases h
  rfl

theorem antisymm (h : ShapeBelow a b) (h' : ShapeBelow b a) : a = b := by
  cases h with
  | unknown =>
      cases h'
      rfl
  | known dims =>
      cases h' with
      | known dims' => rw [dims.antisymm dims']

theorem trans (h : ShapeBelow a b) (h' : ShapeBelow b c) : ShapeBelow a c := by
  cases h with
  | unknown => exact .unknown
  | known dims =>
      cases h' with
      | known dims' => exact .known (dims.trans dims')

theorem refineShape (a d : Option (List Dim)) : ShapeBelow a (refineShape a d) := by
  cases a with
  | none => exact .unknown
  | some s =>
      cases d with
      | none => exact .refl _
      | some d =>
          unfold TensorGraph.refineShape
          dsimp only
          split
          next length => exact .known (dimsBelow_fillDims length)
          next => exact .refl _

/-- A declaration of all that is known gives just this. -/
theorem refineShape_eq (h : ShapeBelow a b) : TensorGraph.refineShape a b = b := by
  cases h with
  | unknown => rfl
  | known dims => simp [TensorGraph.refineShape, dims.length_eq, dims.fillDims_eq]

/-- A declaration that is filled in with what is known at last gives no less than the declaration
itself, and no more than what is known at last. -/
theorem refineShape_or (h : ShapeBelow a b) (h' : ShapeBelow b c)
    (refined : ShapeBelow (TensorGraph.refineShape a d) c) :
    ShapeBelow (TensorGraph.refineShape a d) (TensorGraph.refineShape b (d.or c)) ∧
      ShapeBelow (TensorGraph.refineShape b (d.or c)) c := by
  cases d with
  | none =>
      rw [Option.none_or, h'.refineShape_eq]
      exact ⟨refined, .refl c⟩
  | some d =>
      rw [Option.some_or]
      cases h with
      | unknown =>
          cases h' with
          | unknown => exact ⟨.refl _, refined⟩
          | known dims =>
              cases refined with
              | known declared =>
                  have length := dims.length_eq.trans declared.length_eq.symm
                  have filled := dims.fillDims_declared declared
                  simp only [TensorGraph.refineShape, length, if_true]
                  exact ⟨.known filled.1, .known filled.2⟩
      | known dims =>
          cases h' with
          | known dims' =>
              simp only [TensorGraph.refineShape, ← dims.length_eq] at refined ⊢
              split at refined
              next length =>
                  cases refined with
                  | known refined =>
                      have filled := dims.fillDims dims' length refined
                      simp only [length, if_true]
                      exact ⟨.known filled.1, .known filled.2⟩
              next length =>
                  simp only [length, if_false]
                  exact ⟨.known dims, .known dims'⟩

end ShapeBelow

/-- Whether a type is another one as far as it is known. -/
def TypeBelow (s t : Option ElementType) : Prop := s = none ∨ s = t

namespace TypeBelow

variable {a b c d : Option ElementType}

theorem refl (a : Option ElementType) : TypeBelow a a := Or.inr rfl

theorem antisymm (h : TypeBelow a b) (h' : TypeBelow b a) : a = b := by
  grind [TypeBelow]

theorem trans (h : TypeBelow a b) (h' : TypeBelow b c) : TypeBelow a c := by
  grind [TypeBelow]

theorem or (a d : Option ElementType) : TypeBelow a (a.or d) := by
  cases a with
  | none => exact Or.inl rfl
  | some t => exact .refl _

theorem or_eq (h : TypeBelow a b) : a.or b = b := by
  rcases h with rfl | rfl
  · exact Option.none_or
  · exact Option.or_self

theorem or_or (h : TypeBelow a b) (h' : TypeBelow b c) (refined : TypeBelow (a.or d) c) :
    TypeBelow (a.or d) (b.or (d.or c)) ∧ TypeBelow (b.or (d.or c)) c := by
  cases a <;> cases b <;> cases d <;> simp_all [TypeBelow]

end TypeBelow

namespace Facts

variable {a b c f : Facts} {d d' : ValueInfo}

/-- Whether facts are other ones as far as they are known.  Elements are never filled in. -/
structure Below (a b : Facts) : Prop where
  type : TypeBelow a.type b.type
  shape : ShapeBelow a.shape b.shape
  values : a.values = b.values

theorem refine_eq (f : Facts) (d : ValueInfo) :
    f.refine d =
      { type := f.type.or d.type, shape := refineShape f.shape d.shape, values := f.values } := by
  unfold refine refineShape
  rfl

theorem Below.refl (f : Facts) : f.Below f := ⟨.refl _, .refl _, rfl⟩

theorem Below.antisymm (h : a.Below b) (h' : b.Below a) : a = b := by
  have type := h.type.antisymm h'.type
  have shape := h.shape.antisymm h'.shape
  have values := h.values
  cases a
  cases b
  simp_all

theorem Below.trans (h : a.Below b) (h' : b.Below c) : a.Below c :=
  ⟨h.type.trans h'.type, h.shape.trans h'.shape, h.values.trans h'.values⟩

theorem below_refine (f : Facts) (d : ValueInfo) : f.Below (f.refine d) := by
  rw [refine_eq]
  exact ⟨.or _ _, .refineShape _ _, rfl⟩

theorem below_foldl_refine (ds : List ValueInfo) (f : Facts) : f.Below (ds.foldl refine f) := by
  induction ds generalizing f with
  | nil => exact .refl f
  | cons d ds ih => exact (f.below_refine d).trans (ih _)

/-- A declaration of all that is known gives just this. -/
theorem Below.refine_eq_right (h : a.Below b) (type : d.type = b.type) (shape : d.shape = b.shape) :
    a.refine d = b := by
  rw [refine_eq, type, shape, h.type.or_eq, h.shape.refineShape_eq, h.values]

/-- A declaration that says nothing changes nothing. -/
theorem refine_of_silent (f : Facts) (type : d.type = none) (shape : d.shape = none) :
    f.refine d = f := by
  rw [refine_eq, type, shape, Option.or_none, refineShape_none]

theorem foldl_refine_of_silent {ds : List ValueInfo}
    (silent : ∀ d ∈ ds, d.type = none ∧ d.shape = none) (f : Facts) : ds.foldl refine f = f := by
  induction ds with
  | nil => rfl
  | cons d ds ih =>
      obtain ⟨head, tail⟩ := List.forall_mem_cons.1 silent
      rw [List.foldl_cons, f.refine_of_silent head.1 head.2, ih tail]

/-- If neither type nor rank is known in the end, no declaration says anything. -/
theorem silent_of_foldl_refine {ds : List ValueInfo} (type : (ds.foldl refine a).type = none)
    (shape : (ds.foldl refine a).shape = none) : ∀ d ∈ ds, d.type = none ∧ d.shape = none := by
  induction ds generalizing a with
  | nil => simp
  | cons d ds ih =>
      rw [List.foldl_cons] at type shape
      have below := below_foldl_refine ds (a.refine d)
      have head : (a.refine d).type = none := below.type.elim id fun same => same.trans type
      have rank := below.shape.eq_none shape
      rw [refine_eq] at head rank
      exact List.forall_mem_cons.2
        ⟨⟨(Option.or_eq_none_iff.1 head).2, refineShape_eq_none rank⟩, ih type shape⟩

/-- Whether a declaration is another one, filled in where it says nothing at all. -/
structure Fills (f : Facts) (d d' : ValueInfo) : Prop where
  type : d'.type = d.type.or f.type
  shape : d'.shape = d.shape.or f.shape

theorem Below.refine_fills (h : a.Below b) (h' : b.Below f) (fills : f.Fills d d')
    (refined : (a.refine d).Below f) :
    (a.refine d).Below (b.refine d') ∧ (b.refine d').Below f := by
  rw [refine_eq] at refined
  rw [refine_eq, refine_eq, fills.type, fills.shape]
  have type := h.type.or_or h'.type refined.type
  have shape := h.shape.refineShape_or h'.shape refined.shape
  exact ⟨⟨type.1, shape.1, h.values⟩, ⟨type.2, shape.2, h'.values⟩⟩

/-- Declarations that are filled in with what is known of a value give the same again. -/
theorem foldl_refine_fills {ds ds' : List ValueInfo} (fills : List.Forall₂ (Fills f) ds ds')
    (h : a.Below b) (h' : b.Below f) (total : ds.foldl refine a = f) :
    ds'.foldl refine b = f := by
  induction fills generalizing a b with
  | nil =>
      rw [List.foldl_nil] at total ⊢
      subst total
      exact h'.antisymm h
  | @cons d d' ds ds' head tail ih =>
      rw [List.foldl_cons] at total ⊢
      have bound : (a.refine d).Below f := by
        rw [← total]
        exact below_foldl_refine ds _
      have step := h.refine_fills h' head bound
      exact ih step.1 step.2 total

end Facts
/-! ## Inference as a fold over the nodes -/

/-- The facts about the outputs of a nested graph. -/
def Graph.nestedOutputFacts (version : Option Int64) (scope : Scope Facts) (sub : Graph) :
    List Facts :=
  sub.outputs.map fun o =>
    ((((sub.infer version scope).inside scope).get? o.name).getD {}).refine o

/-- The facts about the outputs of a node that follow from those in a scope. -/
def Node.outputFacts (version : Option Int64) (scope : Scope Facts) (n : Node) :
    FactsResult (List Facts) :=
  let inputs := Graph.nodeInputFacts scope n
  if n.isDefaultDomain ∧ n.opType = "If" then
    match n.graph? "then_branch", n.graph? "else_branch" with
    | some onTrue, some onFalse => do
      match knownCondition (← inputs.require 0) with
      | some true => return onTrue.nestedOutputFacts version scope
      | some false => return onFalse.nestedOutputFacts version scope
      | none =>
        return ((onTrue.nestedOutputFacts version scope).zip
          (onFalse.nestedOutputFacts version scope)).map fun (t, e) => t.merge e
    | _, _ => .error .invalidValue
  else if n.isDefaultDomain ∧ n.opType = "Loop" then
    match n.graph? "body" with
    | some body => .ok (loopFacts inputs (body.nestedOutputFacts version scope))
    | none => .error .invalidValue
  else
    match Operator.ofNode version n with
    | .ok (.kernel k) => k.infer inputs
    | _ => .ok []

namespace Graph

variable {version : Option Int64} {g g' : Graph} {outer : Scope Facts}

/-- The facts after a node. -/
def inferNode (version : Option Int64) (g : Graph) (outer : Scope Facts) (facts : Scope Facts)
    (n : Node) : Scope Facts :=
  g.bindOutputFacts n ((n.outputFacts version (facts.inside outer)).toOption.getD []) facts

theorem infer_eq (version : Option Int64) (g : Graph) (outer : Scope Facts) :
    g.infer version outer =
      (g.evaluationOrder.map Subtype.val).foldl (g.inferNode version outer) g.givenFacts := by
  rw [infer, List.foldl_map]
  congr 1
  funext facts ⟨n, hn⟩
  unfold inferNode Node.outputFacts
  dsimp only
  congr 3
  split
  · split
    next thens elses =>
      rw [thens, elses]
      rfl
    next missing =>
      split
      next thens elses => exact absurd elses (missing _ _ thens)
      next => rfl
  · split
    · split
      next body =>
        rw [body]
        rfl
      next missing =>
        rw [missing]
    · rfl

/-! ### Binding outputs -/

/-- Bind each name that is not empty to facts about it. -/
def bindEach (f : String × Nat → Facts) (l : List (String × Nat)) (facts : Scope Facts) :
    Scope Facts :=
  l.foldl (fun facts p => if p.1 = "" then facts else facts.bind p.1 (f p)) facts

theorem bindOutputFacts_eq (g : Graph) (n : Node) (outputs : List Facts) (facts : Scope Facts) :
    g.bindOutputFacts n outputs facts =
      bindEach (fun p => (g.declarations p.1).foldl Facts.refine ((outputs[p.2]?).getD {}))
        n.outputs.zipIdx facts := rfl

section

variable {f f' : String × Nat → Facts} {l : List (String × Nat)}

theorem bindEach_cons (p : String × Nat) (facts : Scope Facts) :
    bindEach f (p :: l) facts =
      bindEach f l (if p.1 = "" then facts else facts.bind p.1 (f p)) := rfl

theorem bindEach_congr (h : ∀ p ∈ l, p.1 ≠ "" → f p = f' p) (facts : Scope Facts) :
    bindEach f l facts = bindEach f' l facts := by
  induction l generalizing facts with
  | nil => rfl
  | cons p l ih =>
      have head : (if p.1 = "" then facts else facts.bind p.1 (f p)) =
          if p.1 = "" then facts else facts.bind p.1 (f' p) := by
        split
        · rfl
        next hne => rw [h p List.mem_cons_self hne]
      rw [bindEach_cons, bindEach_cons, head, ih fun q hq => h q (List.mem_cons_of_mem _ hq)]

theorem get?_bindEach_of_not_mem {x : String} (hx : x ∉ (l.map Prod.fst).filter (· ≠ ""))
    (facts : Scope Facts) : (bindEach f l facts).get? x = facts.get? x := by
  induction l generalizing facts with
  | nil => rfl
  | cons p l ih =>
      rw [bindEach_cons, ih (fun mem => hx ?_)]
      · split
        · rfl
        next hne =>
          rw [Scope.get?_bind, if_neg]
          rintro rfl
          exact hx (by simp [hne])
      · exact ((List.sublist_cons_self _ _).filter _).subset mem

theorem get?_bindEach_of_mem (nodup : ((l.map Prod.fst).filter (· ≠ "")).Nodup)
    {p : String × Nat} (hp : p ∈ l) (hne : p.1 ≠ "") (facts : Scope Facts) :
    (bindEach f l facts).get? p.1 = some (f p) := by
  induction l generalizing facts with
  | nil => cases hp
  | cons q l ih =>
      rw [bindEach_cons]
      rcases List.mem_cons.1 hp with rfl | hp
      · rw [List.map_cons, List.filter_cons, if_pos (by simpa using hne)] at nodup
        rw [get?_bindEach_of_not_mem (List.nodup_cons.1 nodup).1, if_neg hne, Scope.get?_bind,
          if_pos rfl]
      · exact ih (nodup.sublist ((List.sublist_cons_self _ _).filter _)) hp _

end

/-! ### What is known in the end -/

theorem map_fst_zipIdx_filter (n : Node) :
    (n.outputs.zipIdx.map Prod.fst).filter (· ≠ "") = n.presentOutputs := by
  rw [List.zipIdx_map_fst]
  rfl

theorem get?_inferNode_of_not_mem {n : Node} {x : String} (hx : x ∉ n.presentOutputs)
    (facts : Scope Facts) : (g.inferNode version outer facts n).get? x = facts.get? x := by
  unfold inferNode
  rw [bindOutputFacts_eq]
  exact get?_bindEach_of_not_mem (by rwa [map_fst_zipIdx_filter]) facts

theorem get?_foldl_inferNode_of_not_mem {ns : List Node} {x : String}
    (hx : x ∉ ns.flatMap Node.presentOutputs) (facts : Scope Facts) :
    (ns.foldl (g.inferNode version outer) facts).get? x = facts.get? x := by
  induction ns generalizing facts with
  | nil => rfl
  | cons n ns ih =>
      rw [List.flatMap_cons, List.mem_append, not_or] at hx
      rw [List.foldl_cons, ih hx.2, get?_inferNode_of_not_mem hx.1]

/-- Two graphs with the same nodes have the same facts if the declarations of each value make the
same of what follows for it from other facts. -/
theorem foldl_inferNode_congr {ns : List Node} (distinct : Node.Distinct ns) (facts : Scope Facts)
    (same : ∀ x ∈ ns.flatMap Node.presentOutputs, ∀ f a,
      (ns.foldl (g.inferNode version outer) facts).get? x = some f →
        (g.declarations x).foldl Facts.refine a = f →
          (g'.declarations x).foldl Facts.refine a = f) :
    ns.foldl (g'.inferNode version outer) facts = ns.foldl (g.inferNode version outer) facts := by
  induction ns generalizing facts with
  | nil => rfl
  | cons n ns ih =>
      obtain ⟨nodup, rest, apart⟩ := Node.distinct_cons.1 distinct
      rw [List.foldl_cons] at same ⊢
      have step : g'.inferNode version outer facts n = g.inferNode version outer facts n := by
        unfold inferNode
        rw [bindOutputFacts_eq, bindOutputFacts_eq]
        refine bindEach_congr (fun p hp hne => ?_) facts
        have mem : p.1 ∈ n.presentOutputs := by
          rw [← map_fst_zipIdx_filter]
          exact List.mem_filter.2 ⟨List.mem_map_of_mem hp, by simpa using hne⟩
        refine same p.1 ?_ _ _ ?_ rfl
        · rw [List.flatMap_cons]
          exact List.mem_append_left _ mem
        · rw [get?_foldl_inferNode_of_not_mem (apart _ mem)]
          unfold inferNode
          rw [bindOutputFacts_eq]
          exact get?_bindEach_of_mem (by rwa [map_fst_zipIdx_filter]) hp hne facts
      rw [List.foldl_cons, step]
      refine ih rest _ fun x hx => same x ?_
      rw [List.flatMap_cons]
      exact List.mem_append_right _ hx

end Graph
end TensorGraph
