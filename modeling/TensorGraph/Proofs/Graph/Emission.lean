import Mathlib.Data.List.ReduceOption
import Mathlib.Logic.Relation
import TensorGraph.Graph.Expression

/-!
# Emission of expressions

Input:

* expressions that are made from earlier ones (`Expressions.WellFormed`), and some of them as roots.

Algorithm:

* emission goes from an expression to what it is made from, and remembers what it has emitted;
* so it is a row of steps, each of which adds one expression after all that it is made from
  (`GraphBuilder.Step`), and at the end exactly what the roots use is there (`GraphBuilder.Walk`).

The order of the walk is left to the steps: what is true of them is true of emission.

Main results:

* `Expressions.WellFormed.push` and `Expressions.WellFormed.pushOutput`: expressions that can be made
  are well formed;
* `GraphBuilder.emit_eq` and `GraphBuilder.emitAll_eq`: emission is a walk, and returns the names of
  the outputs of its roots.
-/

namespace TensorGraph

/-! ## Expressions that are made from earlier ones -/

namespace Expression

/-- The numbers of the expressions that an expression is made from. -/
def dependencies : Expression → List Nat
  | .value _ _ _ => []
  | .constant _ => []
  | .operator _ _ operands _ => operands.reduceOption
  | .output producer _ => [producer]

def outputCount : Expression → Nat
  | .operator _ _ _ outputs => outputs
  | _ => 1

def isOperator : Expression → Bool
  | .operator _ _ _ _ => true
  | _ => false

end Expression

namespace Expressions

variable {es : Expressions}

/-- The number of outputs of an expression. -/
def outputCount (es : Expressions) (i : Nat) : Nat := es[i]?.elim 0 Expression.outputCount

def isOperator (es : Expressions) (i : Nat) : Bool := es[i]?.any Expression.isOperator

/-- Whether expressions are made from earlier ones that have the outputs that are read. -/
structure WellFormed (es : Expressions) : Prop where
  earlier : ∀ (i : Nat) e, es[i]? = some e → ∀ j ∈ e.dependencies, j < i
  operand : ∀ (i : Nat) opType attributes operands outputs,
    es[i]? = some (.operator opType attributes operands outputs) →
      ∀ j, some j ∈ operands → 0 < es.outputCount j
  output : ∀ (i : Nat) operator index, es[i]? = some (.output operator index) →
    index < es.outputCount operator

/-- Expressions stay as they are when one is added. -/
theorem getElem?_push_of_lt {i : Nat} (h : i < es.size) (e : Expression) :
    (es.push e).1[i]? = es[i]? := by
  simp [push, Array.getElem?_push, Nat.ne_of_lt h]

theorem getElem?_push_eq_some {e e' : Expression} {i : Nat} (h : (es.push e).1[i]? = some e') :
    es[i]? = some e' ∨ i = es.size ∧ e' = e := by
  rw [push, Array.getElem?_push] at h
  split at h
  · exact Or.inr ⟨‹_›, (Option.some.inj h).symm⟩
  · exact Or.inl h

theorem outputCount_push_of_pos {j : Nat} (h : 0 < es.outputCount j) (e : Expression) :
    (es.push e).1.outputCount j = es.outputCount j := by
  have inside : j < es.size := by
    by_contra outside
    simp [outputCount, Array.getElem?_eq_none (Nat.le_of_not_lt outside)] at h
  rw [outputCount, getElem?_push_of_lt inside, ← outputCount]

theorem wellFormed_empty : WellFormed #[] := by
  constructor <;> intros <;> simp_all

/-- Expressions may be added that are made from outputs of those that are there. -/
theorem WellFormed.push (wf : es.WellFormed) {e : Expression}
    (present : ∀ j ∈ e.dependencies, 0 < es.outputCount j)
    (output : ∀ operator index, e = .output operator index → index < es.outputCount operator) :
    WellFormed (es.push e).1 := by
  have inside : ∀ j, 0 < es.outputCount j → j < es.size := by
    intro j h
    by_contra outside
    simp [outputCount, Array.getElem?_eq_none (Nat.le_of_not_lt outside)] at h
  constructor
  · intro i e' he
    rcases getElem?_push_eq_some he with old | ⟨rfl, rfl⟩
    · exact wf.earlier i e' old
    · exact fun j hj => inside j (present j hj)
  · intro i opType attributes operands outputs he j hj
    rcases getElem?_push_eq_some he with old | ⟨rfl, rfl⟩
    · have pos := wf.operand i opType attributes operands outputs old j hj
      rwa [outputCount_push_of_pos pos]
    · have pos := present j (List.reduceOption_mem_iff.2 hj)
      rwa [outputCount_push_of_pos pos]
  · intro i operator index he
    have old : index < es.outputCount operator := by
      rcases getElem?_push_eq_some he with old | ⟨rfl, rfl⟩
      · exact wf.output i operator index old
      · exact output operator index rfl
    rwa [outputCount_push_of_pos (by omega)]

/-- Outputs can only be taken where there are some. -/
theorem WellFormed.pushOutput (wf : es.WellFormed) {operator index : Nat}
    {made : Expressions × Nat} (h : es.pushOutput operator index = .ok made) :
    made.1.WellFormed := by
  unfold Expressions.pushOutput at h
  split at h
  · rename_i opType attributes operands outputs he
    split at h
    · rename_i hlt
      cases h
      have count : index < es.outputCount operator := by
        simpa [outputCount, he, Expression.outputCount] using hlt
      refine wf.push ?_ ?_
      · intro j hj
        cases List.mem_singleton.1 hj
        omega
      · rintro operator' index' ⟨⟩
        exact count
    · cases h
  · cases h

/-- Whether an expression is made from another one directly. -/
def DependsOn (es : Expressions) (i j : Nat) : Prop :=
  ∃ e, es[i]? = some e ∧ j ∈ e.dependencies

/-- Whether an expression is another one or is made from it, directly or through others. -/
def Uses (es : Expressions) : Nat → Nat → Prop := Relation.ReflTransGen es.DependsOn

theorem WellFormed.le_of_uses (wf : es.WellFormed) {i j : Nat} (h : es.Uses i j) : j ≤ i := by
  induction h with
  | refl => exact Nat.le_refl i
  | tail _ step ih =>
      obtain ⟨e, he, hj⟩ := step
      exact Nat.le_trans (Nat.le_of_lt (wf.earlier _ e he _ hj)) ih

/-- Whether all that the given expressions are made from is among them. -/
def Closed (es : Expressions) (known : List Nat) : Prop :=
  ∀ i ∈ known, ∀ j, es.DependsOn i j → j ∈ known

theorem Closed.mem_of_uses {known : List Nat} (h : es.Closed known) {i j : Nat} (hi : i ∈ known)
    (uses : es.Uses i j) : j ∈ known := by
  induction uses with
  | refl => exact hi
  | tail _ step ih => exact h _ ih _ step

end Expressions

/-! ## One step of emission -/

namespace GraphBuilder

variable {es : Expressions} {b b' b'' : GraphBuilder} {i j : Nat} {e : Expression}

/-- The numbers of the expressions that were emitted, the latest first. -/
def known (b : GraphBuilder) : List Nat := b.emitted.map Prod.fst

/-- The names of the outputs of an expression that was emitted. -/
def outputsOf (b : GraphBuilder) (i : Nat) : List String :=
  ((b.emitted.find? fun p => p.1 == i).map Prod.snd).getD []

/-- The name that is read for an operand. -/
def inputName (names : Nat → List String) (operand : Option Nat) : String :=
  operand.elim "" fun j => (names j).headD ""

/-- The node of an operator. -/
def operatorNode (name opType : String) (attributes : List (String × AttributeValue))
    (inputs outputs : List String) : Node :=
  attributes.foldl (fun n p => n.setAttribute p.1 p.2)
    { name := some name, opType := opType, inputs := inputs, outputs := outputs }

/-- Make an expression of what was emitted, and return the names of its outputs. -/
def make (b : GraphBuilder) : Expression → GraphBuilder × List String
  | .value name type shape =>
    ({ b with values := { name := name, type := type, shape := shape } :: b.values }, [name])
  | .constant t =>
    let c := b.name "const"
    ({ c.1 with graph := b.graph.setInitializer c.2 t }, [c.2])
  | .operator opType attributes operands outputs =>
    let made := b.names (opType ++ "_out") outputs
    let c := made.1.name opType
    let node := operatorNode c.2 opType attributes (operands.map (inputName b.outputsOf)) made.2
    ({ c.1 with graph := b.graph.addNode node }, made.2)
  | .output operator index => (b, [(b.outputsOf operator).getD index ""])

/-- Make an expression and remember it. -/
def add (b : GraphBuilder) (i : Nat) (e : Expression) : GraphBuilder :=
  ((b.make e).1.remember i (b.make e).2).1

/-- One more expression is added, after all that it is made from. -/
def Step (es : Expressions) (b b' : GraphBuilder) : Prop :=
  ∃ i e, i ∉ b.known ∧ es[i]? = some e ∧ (∀ j ∈ e.dependencies, j ∈ b.known) ∧ b' = b.add i e

/-- Taking names changes nothing but the used names. -/
theorem fst_names (b : GraphBuilder) (stem : String) (count : Nat) :
    (b.names stem count).1 = { b with used := (b.names stem count).2.reverse ++ b.used } := by
  induction count generalizing b with
  | zero => rfl
  | succ count ih =>
      have rest := ih (b.name stem).1
      simp only [names, List.reverse_cons, List.append_assoc, List.cons_append, List.nil_append]
      exact rest

theorem emitted_make (b : GraphBuilder) (e : Expression) : (b.make e).1.emitted = b.emitted := by
  cases e with
  | value | constant | output => rfl
  | operator opType attributes operands outputs =>
      show (b.names (opType ++ "_out") outputs).1.emitted = b.emitted
      rw [fst_names]

theorem known_add (b : GraphBuilder) (i : Nat) (e : Expression) :
    (b.add i e).known = i :: b.known := by
  simp [add, remember, known, emitted_make]

theorem outputsOf_add_self (b : GraphBuilder) (i : Nat) (e : Expression) :
    (b.add i e).outputsOf i = (b.make e).2 := by
  simp [add, remember, outputsOf]

theorem outputsOf_add_of_ne (b : GraphBuilder) (e : Expression) (h : j ≠ i) :
    (b.add i e).outputsOf j = b.outputsOf j := by
  simp [add, remember, outputsOf, emitted_make, h.symm]

/-! ## A walk is a row of steps -/

/-- Steps keep what was known, and its names. -/
theorem outputsOf_of_steps (steps : Relation.ReflTransGen (Step es) b b') (h : j ∈ b.known) :
    j ∈ b'.known ∧ b'.outputsOf j = b.outputsOf j := by
  induction steps with
  | refl => exact ⟨h, rfl⟩
  | tail _ step ih =>
      obtain ⟨i, e, new, -, -, rfl⟩ := step
      obtain ⟨hj, same⟩ := ih
      constructor
      · rw [known_add]
        exact List.mem_cons_of_mem _ hj
      · have ne : j ≠ i := by
          rintro rfl
          exact new hj
        rw [outputsOf_add_of_ne _ _ ne, same]

/-- The state after walking through all that some expressions use. -/
structure Walk (es : Expressions) (b : GraphBuilder) (roots : List Nat) (b' : GraphBuilder) :
    Prop where
  steps : Relation.ReflTransGen (Step es) b b'
  known : ∀ j, j ∈ b'.known ↔ j ∈ b.known ∨ ∃ r ∈ roots, es.Uses r j

namespace Walk

variable {roots roots' : List Nat}

theorem nil (b : GraphBuilder) : Walk es b [] b := ⟨.refl, by simp⟩

theorem append (h : Walk es b roots b') (h' : Walk es b' roots' b'') :
    Walk es b (roots ++ roots') b'' := by
  refine ⟨h.steps.trans h'.steps, fun j => ?_⟩
  rw [h'.known, h.known, or_assoc]
  refine or_congr_right ?_
  simp only [List.mem_append, or_and_right, exists_or]

theorem mem_known (h : Walk es b roots b') {r : Nat} (hr : r ∈ roots) : r ∈ b'.known :=
  (h.known r).2 (Or.inr ⟨r, hr, .refl⟩)

theorem closed (h : Walk es b roots b') (closed : es.Closed b.known) : es.Closed b'.known := by
  intro i hi j dep
  rw [h.known] at hi ⊢
  rcases hi with hi | ⟨r, hr, uses⟩
  · exact Or.inl (closed i hi j dep)
  · exact Or.inr ⟨r, hr, uses.tail dep⟩

/-- Nothing is left to do for an expression that was emitted. -/
theorem of_mem_known (closed : es.Closed b.known) (h : i ∈ b.known) : Walk es b [i] b := by
  refine ⟨.refl, fun j => ⟨Or.inl, ?_⟩⟩
  rintro (hj | ⟨r, hr, uses⟩)
  · exact hj
  · cases List.mem_singleton.1 hr
    exact closed.mem_of_uses h uses

/-- After what an expression is made from, the expression itself is added. -/
theorem add (wf : es.WellFormed) (he : es[i]? = some e) (new : i ∉ b.known)
    (h : Walk es b e.dependencies b') : Walk es b [i] (b'.add i e) := by
  have unknown : i ∉ b'.known := by
    intro hi
    rcases (h.known i).1 hi with hi | ⟨r, hr, uses⟩
    · exact new hi
    · have := wf.earlier i e he r hr
      have := wf.le_of_uses uses
      omega
  refine ⟨h.steps.tail ⟨i, e, unknown, he, fun j hj => h.mem_known hj, rfl⟩, fun j => ?_⟩
  have uses : es.Uses i j ↔ j = i ∨ ∃ r ∈ e.dependencies, es.Uses r j := by
    refine Relation.ReflTransGen.cases_head_iff.trans (or_congr eq_comm ?_)
    constructor
    · rintro ⟨r, ⟨e', he', hr⟩, uses⟩
      cases he.symm.trans he'
      exact ⟨r, hr, uses⟩
    · rintro ⟨r, hr, uses⟩
      exact ⟨r, ⟨e, he, hr⟩, uses⟩
  rw [known_add, List.mem_cons, h.known]
  simp only [List.mem_singleton, exists_eq_left, uses]
  constructor
  · rintro (hj | hj | hj)
    · exact Or.inr (Or.inl hj)
    · exact Or.inl hj
    · exact Or.inr (Or.inr hj)
  · rintro (hj | hj | hj)
    · exact Or.inr (Or.inl hj)
    · exact Or.inl hj
    · exact Or.inr (Or.inr hj)

end Walk

/-! ## Emission is a walk -/

/-- Emit the operands of a node, and return the names that the node reads. -/
def emitOperands (es : Expressions) (b : GraphBuilder) :
    List (Option Nat) → GraphBuilder × List String
  | [] => (b, [])
  | none :: rest =>
    let r := emitOperands es b rest
    (r.1, "" :: r.2)
  | some i :: rest =>
    let r := emitOperands es (emit es b i).1 rest
    (r.1, (emit es b i).2.headD "" :: r.2)

theorem find?_of_not_mem_known (h : i ∉ b.known) : b.emitted.find? (fun p => p.1 == i) = none := by
  rw [List.find?_eq_none]
  intro p hp
  simp only [beq_iff_eq]
  rintro rfl
  exact h (List.mem_map.2 ⟨p, hp, rfl⟩)

theorem emit_of_mem_known (h : i ∈ b.known) : emit es b i = (b, b.outputsOf i) := by
  rw [emit, outputsOf]
  cases hf : b.emitted.find? fun p => p.1 == i with
  | some p => rfl
  | none =>
      obtain ⟨p, hp, rfl⟩ := List.mem_map.1 h
      simpa using List.find?_eq_none.1 hf p hp

theorem foldl_emitOperands (es : Expressions)
    {step : GraphBuilder × List String → Option Nat → GraphBuilder × List String}
    (omitted : ∀ s, step s none = (s.1, s.2 ++ [""]))
    (present : ∀ s j, j < i →
      step s (some j) = ((emit es s.1 j).1, s.2 ++ [(emit es s.1 j).2.headD ""]))
    {operands : List (Option Nat)} (earlier : ∀ j, some j ∈ operands → j < i)
    (s : GraphBuilder × List String) :
    operands.foldl step s =
      ((emitOperands es s.1 operands).1, s.2 ++ (emitOperands es s.1 operands).2) := by
  induction operands generalizing s with
  | nil => simp [emitOperands]
  | cons operand rest ih =>
      have others := ih fun j hj => earlier j (List.mem_cons_of_mem _ hj)
      cases operand with
      | none => simp [omitted, others, emitOperands]
      | some j => simp [present _ j (earlier j List.mem_cons_self), others, emitOperands]

/-- What emission does for an operator: first its operands, then the node. -/
theorem emit_operator {opType : String} {attributes : List (String × AttributeValue)}
    {operands : List (Option Nat)} {outputs : Nat} (h : i ∉ b.known)
    (he : es[i]? = some (.operator opType attributes operands outputs))
    (earlier : ∀ j, some j ∈ operands → j < i) :
    emit es b i =
      let r := emitOperands es b operands
      let made := r.1.names (opType ++ "_out") outputs
      let c := made.1.name opType
      let node := operatorNode c.2 opType attributes r.2 made.2
      remember { c.1 with graph := r.1.graph.addNode node } i made.2 := by
  have graph : ∀ b : GraphBuilder, (b.names (opType ++ "_out") outputs).1.graph = b.graph :=
    fun b => by rw [fst_names]
  rw [emit, find?_of_not_mem_known h, he]
  dsimp only
  rw [foldl_emitOperands es (fun s => rfl) (fun s j hj => by simp only [hj, dite_true]) earlier,
    List.nil_append, ← graph (emitOperands es b operands).1]
  rfl

/-- What emission of one expression does. -/
def EmitsAsWalk (es : Expressions) (i : Nat) : Prop :=
  ∀ b : GraphBuilder, es.Closed b.known →
    Walk es b [i] (emit es b i).1 ∧ (emit es b i).2 = (emit es b i).1.outputsOf i

theorem emitOperands_eq {operands : List (Option Nat)}
    (walks : ∀ j, some j ∈ operands → EmitsAsWalk es j) (closed : es.Closed b.known) :
    Walk es b operands.reduceOption (emitOperands es b operands).1 ∧
      (emitOperands es b operands).2 =
        operands.map (inputName (emitOperands es b operands).1.outputsOf) := by
  induction operands generalizing b with
  | nil => exact ⟨Walk.nil b, rfl⟩
  | cons operand rest ih =>
      have others := fun j hj => walks j (List.mem_cons_of_mem _ hj)
      cases operand with
      | none =>
          obtain ⟨walk, names⟩ := ih others closed
          refine ⟨walk, ?_⟩
          rw [emitOperands, List.map_cons, ← names]
          rfl
      | some j =>
          obtain ⟨first, outputs⟩ := walks j List.mem_cons_self b closed
          obtain ⟨walk, names⟩ := ih others (first.closed closed)
          refine ⟨first.append walk, ?_⟩
          -- the names of the first operand stay while the others are emitted
          have kept := (outputsOf_of_steps walk.steps (first.mem_known List.mem_cons_self)).2
          rw [emitOperands, List.map_cons, ← names, outputs, ← kept]
          rfl

/-- Emission of an expression is a walk from it, and returns the names of its outputs. -/
theorem emit_eq (wf : es.WellFormed) (hi : i < es.size) : EmitsAsWalk es i := by
  induction i using Nat.strongRecOn with
  | ind i ih =>
      intro b closed
      by_cases h : i ∈ b.known
      · rw [emit_of_mem_known h]
        exact ⟨Walk.of_mem_known closed h, rfl⟩
      obtain ⟨e, he⟩ : ∃ e, es[i]? = some e := ⟨es[i], Array.getElem?_eq_getElem hi⟩
      have walks : ∀ j ∈ e.dependencies, EmitsAsWalk es j := fun j hj =>
        ih j (wf.earlier i e he j hj) (Nat.lt_trans (wf.earlier i e he j hj) hi)
      suffices ∃ b', Walk es b e.dependencies b' ∧ emit es b i = (b'.add i e, (b'.make e).2) by
        obtain ⟨b', walk, emits⟩ := this
        rw [emits]
        exact ⟨walk.add wf he h, (outputsOf_add_self b' i e).symm⟩
      cases e with
      | value name type shape =>
          refine ⟨b, Walk.nil b, ?_⟩
          rw [emit, find?_of_not_mem_known h, he]
          rfl
      | constant t =>
          refine ⟨b, Walk.nil b, ?_⟩
          rw [emit, find?_of_not_mem_known h, he]
          rfl
      | operator opType attributes operands outputs =>
          obtain ⟨walk, names⟩ := emitOperands_eq
            (fun j hj => walks j (List.reduceOption_mem_iff.2 hj)) closed
          refine ⟨_, walk, ?_⟩
          rw [emit_operator h he fun j hj => wf.earlier i _ he j (List.reduceOption_mem_iff.2 hj)]
          dsimp only
          rw [names]
          rfl
      | output operator index =>
          have earlier : operator < i := wf.earlier i _ he operator List.mem_cons_self
          obtain ⟨walk, names⟩ := walks operator List.mem_cons_self b closed
          refine ⟨_, walk, ?_⟩
          rw [emit, find?_of_not_mem_known h, he]
          simp only [earlier, dite_true, names]
          rfl

/-- Emission of several expressions is a walk from them. -/
theorem emitAll_eq (wf : es.WellFormed) {numbers : List Nat} (inside : ∀ i ∈ numbers, i < es.size)
    (closed : es.Closed b.known) :
    Walk es b numbers (emitAll es b numbers).1 ∧
      (emitAll es b numbers).2 = (numbers.flatMap (emitAll es b numbers).1.outputsOf).eraseDups := by
  have fold : ∀ (names : List String) (b : GraphBuilder), es.Closed b.known →
      let r := numbers.foldl (fun s i => ((emit es s.1 i).1, s.2 ++ (emit es s.1 i).2)) (b, names)
      Walk es b numbers r.1 ∧ r.2 = names ++ numbers.flatMap r.1.outputsOf := by
    induction numbers with
    | nil => exact fun names b _ => ⟨Walk.nil b, by simp⟩
    | cons i rest ih =>
        intro names b closed
        obtain ⟨first, outputs⟩ := emit_eq wf (inside i List.mem_cons_self) b closed
        obtain ⟨walk, all⟩ := ih (fun j hj => inside j (List.mem_cons_of_mem _ hj))
          (names ++ (emit es b i).2) (emit es b i).1 (first.closed closed)
        refine ⟨first.append walk, ?_⟩
        have kept := (outputsOf_of_steps walk.steps (first.mem_known List.mem_cons_self)).2
        simp only [List.foldl_cons, List.flatMap_cons]
        rw [kept, ← outputs, ← List.append_assoc]
        exact all
  obtain ⟨walk, all⟩ := fold [] b closed
  exact ⟨walk, congrArg List.eraseDups all⟩

end GraphBuilder

end TensorGraph
