import TensorGraph.Proofs.Graph.Order
import TensorGraph.Simplification.View

/-!
# What patterns bind

Input:

* a pattern, and a value of a graph that it is matched with.

A value feeds another one when it is read by the node that produces the other one, or by a node that
produces a value that feeds it.

Main results:

* `Pattern.matches?_feeds`: an operator's pattern binds values that feed the matched one;
* `Graph.Feeds.rank_lt`, `Graph.Feeds.visible`: what feeds a value has a lower rank, and is visible
  in the graph.
-/

namespace TensorGraph
namespace Graph

/-- Whether a value is needed to compute another one. -/
inductive Feeds (g : Graph) : String → String → Prop
  | node {n : Node} {x y : String} (hn : n ∈ g.nodes) (hx : x ∈ n.reads)
      (hy : y ∈ n.presentOutputs) : Feeds g x y
  | trans {x y z : String} (first : Feeds g x y) (second : Feeds g y z) : Feeds g x z

namespace Feeds

variable {g : Graph} {x y : String}

theorem rank_lt (h : Feeds g x y) {rank : String → Nat} (ranks : Node.Ranks rank g.nodes) :
    rank x < rank y := by
  induction h with
  | node hn hx hy => exact ranks _ hn _ hx _ hy
  | trans _ _ ih₁ ih₂ => exact Nat.lt_trans ih₁ ih₂

theorem visible (h : Feeds g x y) : x ∈ g.definedNames ∨ x ∈ g.captures := by
  induction h with
  | node hn hx _ => exact reads_subset hn hx
  | trans _ _ ih₁ _ => exact ih₁

/-- What feeds a value is read by its producer, or feeds what its producer reads. -/
theorem exists_last (h : Feeds g x y) :
    ∃ n ∈ g.nodes, y ∈ n.presentOutputs ∧ ∃ z ∈ n.reads, x = z ∨ Feeds g x z := by
  induction h with
  | node hn hx hy => exact ⟨_, hn, hy, _, hx, Or.inl rfl⟩
  | trans first second _ ih₂ =>
      obtain ⟨n, hn, hy, z, hz, hyz⟩ := ih₂
      refine ⟨n, hn, hy, z, hz, Or.inr ?_⟩
      rcases hyz with rfl | hyz
      · exact first
      · exact first.trans hyz

/-- What feeds a value does not come from the same node. -/
theorem foreign (h : Feeds g x y) {rank : String → Nat} (ranks : Node.Ranks rank g.nodes)
    (hd : Node.Distinct g.nodes) {n : Node} (hn : n ∈ g.nodes) (hy : y ∈ n.presentOutputs) :
    x ∉ n.presentOutputs := by
  intro hx
  obtain ⟨m, hm, hym, z, hz, hxz⟩ := h.exists_last
  obtain ⟨i, hi⟩ := List.getElem?_of_mem hn
  obtain ⟨j, hj⟩ := List.getElem?_of_mem hm
  have hij := hd.eq_index hi hj hy hym
  subst hij
  rw [hi] at hj
  cases hj
  have hlt := ranks n hn z hz x hx
  rcases hxz with rfl | hxz
  · exact Nat.lt_irrefl _ hlt
  · exact Nat.lt_irrefl _ (Nat.lt_trans (hxz.rank_lt ranks) hlt)

end Feeds

end Graph

namespace Node

theorem mem_reads_of_input? {n : Node} {i : Nat} {x : String} (h : n.input? i = some x) :
    x ∈ n.reads := by
  obtain ⟨hi, hne⟩ := Option.filter_eq_some_iff.1 h
  exact mem_reads.2 (Or.inl (mem_presentInputs.2 ⟨List.mem_of_getElem? hi, by simpa using hne⟩))

theorem isOperator_iff {n : Node} {opType : String} :
    n.isOperator opType = true ↔ n.opType = opType ∧ n.isDefaultDomain = true := by
  simp [isOperator]

theorem head?_of_firstOutput? {n : Node} {y : String} (h : n.firstOutput? = some y) :
    n.outputs.head? = some y :=
  (Option.filter_eq_some_iff.1 h).1

theorem mem_presentOutputs_of_firstOutput? {n : Node} {x : String}
    (h : n.firstOutput? = some x) : x ∈ n.presentOutputs := by
  obtain ⟨hi, hne⟩ := Option.filter_eq_some_iff.1 h
  exact mem_presentOutputs.2 ⟨List.mem_of_head? hi, by simpa using hne⟩

/-- A node whose only output is the first one of another node defines nothing else. -/
theorem mem_presentOutputs_of_head? {n m : Node} {output x : String}
    (first : n.outputs.head? = some output) (outputs : m.outputs = [output])
    (hx : x ∈ m.presentOutputs) : x ∈ n.presentOutputs := by
  obtain ⟨hmem, hne⟩ := mem_presentOutputs.1 hx
  rw [outputs, List.mem_singleton] at hmem
  subst hmem
  exact mem_presentOutputs.2 ⟨List.mem_of_head? first, hne⟩

end Node

/-! ## Bindings -/

/-- Whether the producers that a pattern sees are the nodes of a graph. -/
def Computations.Of (c : Computations) (g : Graph) : Prop :=
  ∀ value i n, c.producer? value = some (i, n) →
    g.nodes[i]? = some n ∧ value ∈ n.presentOutputs

theorem View.computations_of (v : View) : v.computations.Of v.graph := by
  intro value i n h
  simp only [View.computations, View.producer?, Option.bind_eq_bind, Option.bind_eq_some_iff,
    Option.pure_def, Option.some.injEq, Prod.mk.injEq] at h
  obtain ⟨j, hj, m, hm, rfl, rfl⟩ := h
  obtain ⟨k, hk, hx⟩ := Graph.lastProducer?_some hj
  rw [hm] at hk
  cases hk
  exact ⟨hm, hx⟩

namespace MatchState

theorem mem_of_lookup {l : List (String × Binding)} {name : String} {b : Binding}
    (h : l.lookup name = some b) : (name, b) ∈ l := by
  obtain ⟨l₁, l₂, rfl, -⟩ := List.lookup_eq_some_iff.1 h
  simp

/-- Whether all bound values have a property. -/
def Bound (R : String → Prop) (s : MatchState) : Prop :=
  ∀ name v, (name, Binding.value v) ∈ s.bindings → R v

variable {R : String → Prop} {s : MatchState}

theorem Bound.add_value (h : s.Bound R) {name v : String} (hv : R v) :
    (s.add name (.value v)).Bound R := by
  intro k w hmem
  rcases List.mem_append.1 hmem with hmem | hmem
  · exact h k w hmem
  · cases List.mem_singleton.1 hmem
    exact hv

theorem Bound.add_node (h : s.Bound R) {name : String} {i : Nat} :
    (s.add name (.node i)).Bound R := by
  intro k w hmem
  rcases List.mem_append.1 hmem with hmem | hmem
  · exact h k w hmem
  · cases List.mem_singleton.1 hmem

theorem Bound.mark (h : s.Bound R) : s.mark.Bound R := h

theorem Bound.revert (h : s.Bound R) : s.revert.Bound R := by
  intro k w hmem
  unfold MatchState.revert at hmem
  split at hmem
  · exact h k w hmem
  · exact h k w (List.mem_of_mem_take hmem)

theorem Bound.of_value? (h : s.Bound R) {name v : String} (hv : s.value? name = some v) : R v := by
  unfold value? get? at hv
  split at hv
  · cases hv
    rename_i heq
    exact h name v (mem_of_lookup heq)
  · cases hv

end MatchState

namespace Pattern

variable {c : Computations} {g : Graph} {R : String → Prop}

theorem mem_inputs_of_mem_operands {n : Node} {x : String} (h : x ∈ operands n) :
    x ∈ n.inputs := by
  have := List.mem_reverse.1 h
  exact List.mem_reverse.1 ((List.dropWhile_sublist _).subset this)

/-- The operands of a producer feed the value, or are omitted. -/
theorem bindable_operand (hc : c.Of g) (hempty : R "") {value : String} {i : Nat} {n : Node}
    (hprod : c.producer? value = some (i, n)) (h : ∀ u, g.Feeds u value → R u) :
    ∀ x ∈ operands n, R x ∧ (x ≠ "" → ∀ u, g.Feeds u x → R u) := by
  intro x hx
  obtain ⟨hn, hv⟩ := hc value i n hprod
  by_cases hne : x = ""
  · subst hne
    exact ⟨hempty, fun h => absurd rfl h⟩
  · have hfeeds : g.Feeds x value :=
      .node (List.mem_of_getElem? hn) (Node.mem_reads.2 (Or.inl
        (Node.mem_presentInputs.2 ⟨mem_inputs_of_mem_operands hx, hne⟩))) hv
    exact ⟨h x hfeeds, fun _ u hu => h u (hu.trans hfeeds)⟩

theorem bound_testSymbol {name value : String} {isConstant : Bool} {s : MatchState}
    (hs : s.Bound R) (hv : R value) : (testSymbol c name isConstant value s).2.Bound R := by
  unfold testSymbol
  split
  · exact hs
  · split
    · exact hs
    · exact hs.add_value hv

theorem bound_bindKey {key : Option String} {i : Nat} {r : Bool × MatchState}
    (hs : r.2.Bound R) : (bindKey key i r).2.Bound R := by
  obtain ⟨b, s⟩ := r
  cases b with
  | false => exact hs
  | true =>
      cases key with
      | none => exact hs
      | some key => exact hs.add_node

mutual
/-- Matching binds the value or what feeds it. -/
theorem bound_test (hc : c.Of g) (hempty : R "") : ∀ (p : Pattern) (value : String) (s : MatchState),
    s.Bound R → (∀ u, g.Feeds u value → R u) → ((∃ name k, p = symbol name k) → R value) →
    (test c p value s).2.Bound R
  | .operator opType inputs key, value, s, hs, hfeeds, _ => by
      rw [test]
      split
      · exact hs
      · rename_i i n hprod
        have operand := bindable_operand hc hempty hprod hfeeds
        split
        · exact hs
        · split
          · exact bound_bindKey (bound_testEither hc hempty inputs (operands n) s hs operand)
          · exact bound_bindKey (bound_testAll hc hempty inputs (operands n) s hs operand)
  | .constant number, value, s, hs, _, _ => by
      rw [test]
      exact hs
  | .symbol name isConstant, value, s, hs, _, hsymbol => by
      rw [test]
      exact bound_testSymbol hs (hsymbol ⟨name, isConstant, rfl⟩)

theorem bound_testAll (hc : c.Of g) (hempty : R "") :
    ∀ (ps : List Pattern) (values : List String) (s : MatchState), s.Bound R →
    (∀ x ∈ values, R x ∧ (x ≠ "" → ∀ u, g.Feeds u x → R u)) → (testAll c ps values s).2.Bound R
  | p :: ps, value :: values, s, hs, h => by
      rw [testAll]
      split
      · exact hs
      · rename_i hne
        have first := h value List.mem_cons_self
        have hp := bound_test hc hempty p value s hs (first.2 hne) (fun _ => first.1)
        split
        · rename_i s' heq
          rw [heq] at hp
          exact bound_testAll hc hempty ps values s' hp
            fun x hx => h x (List.mem_cons_of_mem _ hx)
        · rename_i s' heq
          rw [heq] at hp
          exact hp
  | [], values, s, hs, _ => by
      rw [testAll]
      · exact hs
      · simp
  | p :: ps, [], s, hs, _ => by
      rw [testAll]
      · exact hs
      · simp

theorem bound_testEither (hc : c.Of g) (hempty : R "") :
    ∀ (ps : List Pattern) (values : List String) (s : MatchState), s.Bound R →
    (∀ x ∈ values, R x ∧ (x ≠ "" → ∀ u, g.Feeds u x → R u)) →
    (testEither c ps values s).2.Bound R
  | [p, q], [a, b], s, hs, h => by
      have feeds : ∀ x ∈ [a, b], ∀ u, g.Feeds u x → R u := by
        intro x hx u hu
        by_cases hne : x = ""
        · subst hne
          obtain ⟨n, -, hy, -⟩ := hu.exists_last
          exact absurd rfl (Node.mem_presentOutputs.1 hy).2
        · exact (h x hx).2 hne u hu
      have ha : a ∈ [a, b] := List.mem_cons_self
      have hb : b ∈ [a, b] := List.mem_cons_of_mem _ List.mem_cons_self
      have testP : ∀ x ∈ [a, b], ∀ s : MatchState, s.Bound R → (test c p x s).2.Bound R :=
        fun x hx s hs => bound_test hc hempty p x s hs (feeds x hx) fun _ => (h x hx).1
      have testQ : ∀ x ∈ [a, b], ∀ s : MatchState, s.Bound R → (test c q x s).2.Bound R :=
        fun x hx s hs => bound_test hc hempty q x s hs (feeds x hx) fun _ => (h x hx).1
      have first : (match test c p a s.mark with
          | (true, s) => test c q b s
          | (false, s) => (false, s)).2.Bound R := by
        have hp := testP a ha s.mark hs.mark
        split
        · rename_i s' heq
          rw [heq] at hp
          exact testQ b hb s' hp
        · rename_i s' heq
          rwa [heq] at hp
      rw [testEither]
      split
      · rename_i s' heq
        exact (congrArg Prod.snd heq).subst (motive := MatchState.Bound R) first
      · rename_i s' heq
        have failed : s'.Bound R := (congrArg Prod.snd heq).subst (motive := MatchState.Bound R) first
        have hq := testQ a ha s'.revert failed.revert
        split
        · rename_i s'' heq'
          rw [heq'] at hq
          exact testP b hb s'' hq
        · rename_i s'' heq'
          rwa [heq'] at hq
  | [], values, s, hs, _ => by
      rw [testEither]
      · exact hs
      · simp
  | [p], values, s, hs, _ => by
      rw [testEither]
      · exact hs
      · simp
  | p :: q :: r :: ps, values, s, hs, _ => by
      rw [testEither]
      · exact hs
      · simp
  | [p, q], [], s, hs, _ => by
      rw [testEither]
      · exact hs
      · simp
  | [p, q], [a], s, hs, _ => by
      rw [testEither]
      · exact hs
      · simp
  | [p, q], a :: b :: d :: values, s, hs, _ => by
      rw [testEither]
      · exact hs
      · simp
end

/-- The operands are the first inputs. -/
theorem operands_prefix (n : Node) : operands n <+: n.inputs := by
  have := (List.dropWhile_suffix (fun x : String => decide (x = ""))  (l := n.inputs.reverse))
  have := List.reverse_prefix.2 this
  rwa [List.reverse_reverse] at this

theorem head?_inputs {n : Node} {a b : String} (h : operands n = [a, b]) :
    n.inputs.head? = some a := by
  obtain ⟨rest, hr⟩ := operands_prefix n
  rw [← hr, h]
  rfl

theorem getLast_operands_ne {n : Node} {a b : String} (h : operands n = [a, b]) : b ≠ "" := by
  have hr : n.inputs.reverse.dropWhile (fun x => decide (x = "")) = [b, a] := by
    have := congrArg List.reverse h
    simpa [operands] using this
  intro hb
  have := List.head?_dropWhile_not (fun x : String => decide (x = "")) n.inputs.reverse
  rw [hr] at this
  simp [hb] at this

/-- What the match of an operator's pattern says of the producer. -/
theorem test_operator {opType value : String} {inputs : List Pattern} {key : Option String}
    {s s' : MatchState} (h : test c (operator opType inputs key) value s = (true, s')) :
    ∃ i n, c.producer? value = some (i, n) ∧ n.opType = opType ∧ n.isDefaultDomain = true ∧
      inputs.length = (operands n).length ∧
      bindKey key i (if isCommutative opType = true ∧ inputs.length = 2 then
        testEither c inputs (operands n) s else testAll c inputs (operands n) s) =
        (true, s') := by
  rw [test] at h
  split at h
  · cases h
  · rename_i i n hprod
    split at h
    · cases h
    · rename_i hcond
      simp only [ne_eq, decide_not, Bool.or_eq_true, Bool.not_eq_true', decide_eq_false_iff_not,
        not_or, Decidable.not_not, Bool.not_eq_false] at hcond
      refine ⟨i, n, hprod, hcond.1.1, hcond.1.2, hcond.2, ?_⟩
      simp only [Bool.and_eq_true, decide_eq_true_eq] at h
      split at h <;> rename_i hcomm
      · rwa [if_pos hcomm]
      · rwa [if_neg hcomm]

theorem matches?_eq_some {p : Pattern} {value : String} {found : MatchState}
    (h : p.matches? c value = some found) : test c p value {} = (true, found) := by
  unfold matches? at h
  split at h
  · rename_i s heq
    cases h
    exact heq
  · cases h

theorem matches?_operator {opType value : String} {inputs : List Pattern} {key : Option String}
    {found : MatchState} (h : (operator opType inputs key).matches? c value = some found) :
    ∃ i n, c.producer? value = some (i, n) ∧ n.opType = opType ∧ n.isDefaultDomain = true ∧
      inputs.length = (operands n).length ∧
      bindKey key i (if isCommutative opType = true ∧ inputs.length = 2 then
        testEither c inputs (operands n) {} else testAll c inputs (operands n) {}) =
        (true, found) :=
  test_operator (matches?_eq_some h)

@[simp] theorem bindKey_none (i : Nat) (r : Bool × MatchState) : bindKey none i r = r := by
  obtain ⟨_ | _, s⟩ := r <;> rfl

/-- Whether a value is a constant all of whose elements are equal to a number. -/
def Fills (c : Computations) (number : Binary64) (value : String) : Prop :=
  ∃ t, c.constant? value = some t ∧ t.isFilledWith number = true

theorem test_number {number : Binary64} {value : String} {s s' : MatchState}
    (h : test c (Pattern.number number) value s = (true, s')) :
    Fills c number value ∧ s' = s := by
  rw [Pattern.number, test, Prod.mk.injEq] at h
  obtain ⟨h, rfl⟩ := h
  cases hc : c.constant? value with
  | none => simp [hc] at h
  | some t => exact ⟨⟨t, hc, by simpa [hc] using h⟩, rfl⟩

/-- A symbol stands for the value that it matches, and what other names stand for stays. -/
theorem test_symbol {name value : String} {isConstant : Bool} {s s' : MatchState}
    (h : test c (symbol name isConstant) value s = (true, s')) :
    s'.value? name = some value ∧ ∀ k x, s.value? k = some x → s'.value? k = some x := by
  rw [test] at h
  unfold testSymbol at h
  split at h
  · cases h
  · split at h
    · rename_i b hb
      rw [Prod.mk.injEq, decide_eq_true_iff] at h
      obtain ⟨rfl, rfl⟩ := h
      exact ⟨by rw [MatchState.value?, hb], fun _ _ hk => hk⟩
    · rename_i hnone
      cases h
      unfold MatchState.get? at hnone
      refine ⟨by simp [MatchState.value?, MatchState.get?, MatchState.add, List.lookup_append, hnone],
        fun k x hk => ?_⟩
      unfold MatchState.value? MatchState.get? at hk ⊢
      split at hk
      · rename_i hlookup
        simpa [MatchState.add, List.lookup_append, hlookup] using hk
      · cases hk

/-- Two operands that match in their order. -/
theorem testAll_pair {p q : Pattern} {values : List String} {s s' : MatchState}
    (length : [p, q].length = values.length) (h : testAll c [p, q] values s = (true, s')) :
    ∃ a b s₁, values = [a, b] ∧ a ≠ "" ∧ b ≠ "" ∧ test c p a s = (true, s₁) ∧
      test c q b s₁ = (true, s') := by
  obtain ⟨a, b, rfl⟩ : ∃ a b, values = [a, b] := by
    match values, length with
    | [a, b], _ => exact ⟨a, b, rfl⟩
  rw [testAll] at h
  split at h
  · cases h
  · rename_i ha
    split at h
    · rename_i s₁ hp
      rw [testAll] at h
      split at h
      · cases h
      · rename_i hb
        split at h
        · rename_i s₂ hq
          cases h
          exact ⟨a, b, s₁, rfl, ha, hb, hp, hq⟩
        · cases h
    · cases h

/-- The match of any value, computed by an operator with a constant.  The constant is the second
operand unless the operands may be exchanged. -/
theorem matches?_binary_any {opType key value x : String} {number : Binary64} {found : MatchState}
    (h : (binary opType (any key) (.number number)).matches? c value = some found)
    (hx : found.value? key = some x) :
    ∃ i n, c.producer? value = some (i, n) ∧ n.opType = opType ∧ n.isDefaultDomain = true ∧
      ∃ a b, operands n = [a, b] ∧
        ((x = a ∧ Fills c number b ∧ (isCommutative opType = true ∨ a ≠ "")) ∨
          (x = b ∧ Fills c number a ∧ isCommutative opType = true)) := by
  obtain ⟨i, n, hprod, hop, hdomain, hlen, hmatch⟩ := matches?_operator h
  have fills : ∀ y, (((c.constant? y).map fun t => t.isFilledWith number).getD false = true) →
      Fills c number y := by
    intro y hy
    exact (test_number (s := {}) (by rw [Pattern.number, test, hy])).1
  refine ⟨i, n, hprod, hop, hdomain, ?_⟩
  by_cases hc : isCommutative opType = true
  · obtain ⟨a, b, hab⟩ : ∃ a b, operands n = [a, b] := by
      match hops : operands n, hlen with
      | [a, b], _ => exact ⟨a, b, rfl⟩
    refine ⟨a, b, hab, ?_⟩
    rw [hab] at hmatch
    cases hb : ((c.constant? b).map fun t => t.isFilledWith number).getD false <;>
      cases ha : ((c.constant? a).map fun t => t.isFilledWith number).getD false <;>
      simp [testEither, test, any, Pattern.number, testSymbol, MatchState.get?, MatchState.mark,
        MatchState.add, MatchState.revert, bindKey, hb, ha, hc] at hmatch <;>
      subst hmatch <;> simp [MatchState.value?, MatchState.get?] at hx
    · exact Or.inr ⟨hx.symm, fills a ha, hc⟩
    · exact Or.inl ⟨hx.symm, fills b hb, Or.inl hc⟩
    · exact Or.inl ⟨hx.symm, fills b hb, Or.inl hc⟩
  · rw [if_neg fun h => hc h.1, bindKey_none] at hmatch
    obtain ⟨a, b, s, hab, ha, -, hany, hnumber⟩ := testAll_pair hlen hmatch
    obtain ⟨hfills, rfl⟩ := test_number hnumber
    rw [(test_symbol hany).1] at hx
    exact ⟨a, b, hab, Or.inl ⟨(Option.some.inj hx).symm, hfills, Or.inr ha⟩⟩

/-- A pattern of an operator binds values that feed the matched one, or omitted operands. -/
theorem matches?_feeds (hc : c.Of g) {opType : String} {inputs : List Pattern}
    {key : Option String} {value : String} {s : MatchState}
    (h : (operator opType inputs key).matches? c value = some s) {name v : String}
    (hv : s.value? name = some v) : v = "" ∨ g.Feeds v value := by
  have bound := bound_test hc (R := fun v => v = "" ∨ g.Feeds v value) (Or.inl rfl)
    (operator opType inputs key) value {} (fun _ _ hmem => by cases hmem)
    (fun _ hu => Or.inr hu) (fun ⟨_, _, heq⟩ => by cases heq)
  unfold matches? at h
  split at h
  · rename_i s' heq
    cases h
    rw [heq] at bound
    exact bound.of_value? hv
  · cases h

end Pattern
end TensorGraph
