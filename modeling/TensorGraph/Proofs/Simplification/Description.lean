import Mathlib.Data.List.Nodup
import TensorGraph.Proofs.Simplification.Match
import TensorGraph.Simplification.View

/-!
# Matches describe values

Input:

* a pattern, and a value that it is matched with.

Algorithm:

* each step of a match keeps the bindings that were there before it (`MatchState.Grows`), also when
  it goes back to a mark;
* a step that tries operands in two orders leaves a mark behind when the first order matches.  If
  nothing inside of the operands does so, then going back leaves nothing behind
  (`MatchState.Grows.revert_eq`);
* what each step does (`Pattern.Outcome`) is put together along the pattern
  (`Pattern.outcome_test`).

Main results:

* `Pattern.matches?_describes`: with what its names stand for, a pattern that matches describes the
  value, up to the order of operands that may be exchanged;
* `Pattern.node?_of_matches?`: keys stand for the nodes that were matched, if operands are tried in
  two orders at one depth only;
* `Pattern.node?_of_failed_order`: at two depths a key may stand for the node of an order that
  failed.
-/

namespace TensorGraph

/-! ## States of a match -/

namespace MatchState

/-- Whether a state keeps the bindings and the marks of an earlier one.  No later mark lies before
the earlier bindings. -/
structure Grows (s s' : MatchState) : Prop where
  bindings : s.bindings <+: s'.bindings
  marks : ∃ added, s'.marks = added ++ s.marks ∧ ∀ m ∈ added, s.bindings.length ≤ m

variable {s s' s'' : MatchState}

theorem Grows.refl (s : MatchState) : s.Grows s :=
  ⟨List.prefix_refl _, [], rfl, fun _ hm => absurd hm List.not_mem_nil⟩

theorem Grows.trans (h : s.Grows s') (h' : s'.Grows s'') : s.Grows s'' := by
  obtain ⟨added, hadded, bound⟩ := h.marks
  obtain ⟨added', hadded', bound'⟩ := h'.marks
  refine ⟨h.bindings.trans h'.bindings, added' ++ added, ?_, fun m hm => ?_⟩
  · rw [hadded', hadded, List.append_assoc]
  · rcases List.mem_append.1 hm with hm | hm
    · exact Nat.le_trans h.bindings.length_le (bound' m hm)
    · exact bound m hm

theorem Grows.add (s : MatchState) (name : String) (b : Binding) : s.Grows (s.add name b) :=
  ⟨List.prefix_append .., [], rfl, fun _ hm => absurd hm List.not_mem_nil⟩

theorem Grows.mark (s : MatchState) : s.Grows s.mark :=
  ⟨List.prefix_refl _, [s.bindings.length], rfl, fun _ hm => by simp [List.mem_singleton.1 hm]⟩

/-- What is done after a mark can be reverted.  A mark that was set later may be in the way, so that
bindings from in between stay. -/
theorem Grows.revert (h : s.mark.Grows s') : s.Grows s'.revert := by
  obtain ⟨added, hadded, bound⟩ := h.marks
  have kept : ∀ m, s.bindings.length ≤ m → s.bindings <+: s'.bindings.take m := by
    intro m hm
    exact List.prefix_take_iff.2 ⟨h.bindings, hm⟩
  unfold MatchState.revert
  cases added with
  | nil =>
      rw [hadded]
      exact ⟨kept _ (Nat.le_refl _), [], rfl, fun _ hm => absurd hm List.not_mem_nil⟩
  | cons m rest =>
      rw [hadded]
      refine ⟨kept m (bound m List.mem_cons_self), rest ++ [s.bindings.length], ?_, fun k hk => ?_⟩
      · simp [MatchState.mark]
      · rcases List.mem_append.1 hk with hk | hk
        · exact bound k (List.mem_cons_of_mem _ hk)
        · exact Nat.le_of_eq (List.mem_singleton.1 hk).symm

/-- Without marks that were set in between, going back leaves nothing behind. -/
theorem Grows.revert_eq (h : s.mark.Grows s') (marks : s'.marks = s.mark.marks) :
    s'.revert = s := by
  obtain ⟨rest, hrest⟩ := h.bindings
  unfold MatchState.revert
  rw [marks]
  have : s'.bindings.take s.bindings.length = s.bindings := by
    rw [← hrest]
    exact List.take_left' rfl
  simp [MatchState.mark, this]

theorem Grows.get? (h : s.Grows s') {name : String} {b : Binding} (hb : s.get? name = some b) :
    s'.get? name = some b := by
  obtain ⟨rest, hrest⟩ := h.bindings
  unfold MatchState.get? at hb ⊢
  rw [← hrest, List.lookup_append, hb]
  rfl

/-- How often a name is bound. -/
def count (s : MatchState) (name : String) : Nat := (s.bindings.map Prod.fst).count name

theorem count_add (s : MatchState) (name : String) (b : Binding) (k : String) :
    (s.add name b).count k = s.count k + [name].count k := by
  simp [count, MatchState.add, List.count_append]

/-- A name that is bound once stands for what it is bound to. -/
theorem get?_of_count {name : String} {b : Binding} (h : (name, b) ∈ s.bindings)
    (once : s.count name ≤ 1) : s.get? name = some b := by
  unfold MatchState.get?
  unfold count at once
  generalize s.bindings = l at h once
  induction l with
  | nil => cases h
  | cons p rest ih =>
      rw [List.map_cons, List.count_cons] at once
      rw [List.lookup_cons]
      by_cases hp : name = p.1
      · have absent : name ∉ rest.map Prod.fst := by
          refine List.count_eq_zero.1 ?_
          rw [if_pos (by simp [hp])] at once
          omega
        rcases List.mem_cons.1 h with rfl | h
        · simp
        · exact absurd (List.mem_map_of_mem h) absent
      · have differs : (name == p.1) = false := by simpa using hp
        rw [differs]
        rcases List.mem_cons.1 h with rfl | h
        · exact absurd rfl hp
        · exact ih h (Nat.le_trans (Nat.le_add_right _ _) once)

end MatchState

/-! ## Descriptions -/

namespace Pattern

variable {c : Computations}

mutual
/-- Whether a pattern, with what its names are bound to, describes how a value is computed. -/
inductive Describes (c : Computations) (found : MatchState) : Pattern → String → Prop
  | operator {opType : String} {inputs : List Pattern} {key : Option String} {value : String}
      {index : Nat} {n : Node} {operands' : List String}
      (producer : c.producer? value = some (index, n)) (opType_eq : n.opType = opType)
      (domain : n.isDefaultDomain = true)
      (order : operands' = operands n ∨
        isCommutative opType = true ∧ inputs.length = 2 ∧ operands' = (operands n).reverse)
      (inputs_describe : DescribesAll c found inputs operands')
      (bound : ∀ k, key = some k → (k, .node index) ∈ found.bindings) :
      Describes c found (.operator opType inputs key) value
  | constant {number : Binary64} {value : String} (fills : Fills c number value) :
      Describes c found (.constant number) value
  | symbol {name : String} {isConstant : Bool} {value : String}
      (bound : found.value? name = some value)
      (known : isConstant = true → (c.constant? value).isSome = true) :
      Describes c found (.symbol name isConstant) value

/-- Whether patterns describe values, one by one. -/
inductive DescribesAll (c : Computations) (found : MatchState) : List Pattern → List String → Prop
  | nil : DescribesAll c found [] []
  | cons {p : Pattern} {ps : List Pattern} {value : String} {values : List String}
      (first : Describes c found p value) (rest : DescribesAll c found ps values) :
      DescribesAll c found (p :: ps) (value :: values)
end

mutual
/-- The keys of the operators in a pattern. -/
def keys : Pattern → List String
  | .operator _ inputs key => keysOf inputs ++ key.toList
  | .constant _ | .symbol _ _ => []

def keysOf : List Pattern → List String
  | [] => []
  | p :: ps => p.keys ++ keysOf ps
end

mutual
/-- The names of the symbols in a pattern. -/
def symbols : Pattern → List String
  | .operator _ inputs _ => symbolsOf inputs
  | .constant _ => []
  | .symbol name _ => [name]

def symbolsOf : List Pattern → List String
  | [] => []
  | p :: ps => p.symbols ++ symbolsOf ps
end

mutual
/-- Whether operands are tried in two orders somewhere. -/
def exchanges : Pattern → Bool
  | .operator opType inputs _ =>
    isCommutative opType && inputs.length = 2 || exchangesAny inputs
  | .constant _ | .symbol _ _ => false

def exchangesAny : List Pattern → Bool
  | [] => false
  | p :: ps => p.exchanges || exchangesAny ps
end

mutual
/-- Whether nothing is tried in two orders inside of operands that are themselves. -/
def isFlat : Pattern → Bool
  | .operator opType inputs _ =>
    areFlat inputs && !(isCommutative opType && inputs.length = 2 && exchangesAny inputs)
  | .constant _ | .symbol _ _ => true

def areFlat : List Pattern → Bool
  | [] => true
  | p :: ps => p.isFlat && areFlat ps
end

/-- What a step of matching does to a state.  `swaps` says whether operands were tried in two
orders, and `flat` whether nothing was tried in two orders inside of these. -/
structure Outcome (s : MatchState) (r : Bool × MatchState) (swaps flat : Bool)
    (keys symbols : List String) (Described : MatchState → Prop) : Prop where
  grows : s.Grows r.2
  described : r.1 = true → ∀ found, r.2.Grows found → Described found
  /-- Marks stay behind only where operands were tried in two orders. -/
  marks : swaps = false → r.2.marks = s.marks
  /-- What was bound in an order that failed is forgotten. -/
  counts : flat = true → r.1 = true → ∀ k, k ∉ symbols → r.2.count k ≤ s.count k + keys.count k

/-- Go on if a step succeeded. -/
def andThen (r : Bool × MatchState) (next : MatchState → Bool × MatchState) : Bool × MatchState :=
  if r.1 then next r.2 else (false, r.2)

namespace Outcome

variable {s : MatchState} {r r' : Bool × MatchState} {next : MatchState → Bool × MatchState}
  {swaps flat swaps' flat' : Bool} {keys keys' symbols symbols' : List String}
  {D D' : MatchState → Prop}

theorem fail (s : MatchState) : Outcome s (false, s) swaps flat keys symbols D where
  grows := .refl s
  described h := by cases h
  marks _ := rfl
  counts _ h := by cases h

/-- A step that binds nothing. -/
theorem keep (h : ∀ found, s.Grows found → D found) :
    Outcome s (true, s) swaps flat keys symbols D where
  grows := .refl s
  described _ := h
  marks _ := rfl
  counts _ _ _ _ := Nat.le_add_right _ _

theorem mono (h : Outcome s r swaps flat keys symbols D) (imp : ∀ found, D found → D' found) :
    Outcome s r swaps flat keys symbols D' :=
  { h with described := fun hr found hf => imp found (h.described hr found hf) }

theorem andThen (h : Outcome s r swaps flat keys symbols D)
    (h' : Outcome r.2 (next r.2) swaps' flat' keys' symbols' D') :
    Outcome s (Pattern.andThen r next) (swaps || swaps') (flat && flat') (keys ++ keys')
      (symbols ++ symbols') (fun found => D found ∧ D' found) := by
  unfold Pattern.andThen
  split
  · rename_i succeeds
    refine ⟨h.grows.trans h'.grows, fun hr found hf => ?_, fun hs => ?_, fun hflat hr k hk => ?_⟩
    · exact ⟨h.described succeeds found (h'.grows.trans hf), h'.described hr found hf⟩
    · obtain ⟨hs, hs'⟩ := Bool.or_eq_false_iff.1 hs
      rw [h'.marks hs', h.marks hs]
    · obtain ⟨hf, hf'⟩ := Bool.and_eq_true_iff.1 hflat
      rw [List.mem_append, not_or] at hk
      have first := h.counts hf succeeds k hk.1
      have second := h'.counts hf' hr k hk.2
      rw [List.count_append]
      omega
  · refine ⟨h.grows, fun hr => ?_, fun hs => h.marks (Bool.or_eq_false_iff.1 hs).1, fun _ hr => ?_⟩
    · cases hr
    · cases hr

/-- A second order, which is tried from the state before the first one if nothing in between may be
in the way. -/
theorem orElse (h : Outcome s.mark r swaps flat keys symbols D)
    (h' : Outcome r.2.revert r' swaps' flat' keys' symbols' D') (same : flat' = flat)
    (perm : keys'.Perm keys) (subset : symbols' ⊆ symbols) :
    Outcome s (if r.1 then r else r') true (flat && !swaps) keys symbols
      (fun found => D found ∨ D' found) := by
  subst same
  split
  · rename_i succeeds
    refine ⟨(MatchState.Grows.mark s).trans h.grows, fun hr found hf => ?_, fun hs => ?_,
      fun hflat hr => ?_⟩
    · exact .inl (h.described hr found hf)
    · cases hs
    · exact h.counts (Bool.and_eq_true_iff.1 hflat).1 hr
  · refine ⟨h.grows.revert.trans h'.grows, fun hr found hf => ?_, fun hs => ?_,
      fun hflat hr k hk => ?_⟩
    · exact .inr (h'.described hr found hf)
    · cases hs
    · obtain ⟨hf, hs⟩ := Bool.and_eq_true_iff.1 hflat
      have forgotten : r.2.revert = s := h.grows.revert_eq (h.marks (by simpa using hs))
      rw [forgotten] at h'
      rw [← perm.count_eq]
      exact h'.counts hf hr k fun hk' => hk (subset hk')

theorem bindKey (h : Outcome s r swaps flat keys symbols D) (key : Option String) (index : Nat) :
    Outcome s (Pattern.bindKey key index r) swaps flat (keys ++ key.toList) symbols
      (fun found => D found ∧ ∀ k, key = some k → (k, .node index) ∈ found.bindings) := by
  obtain ⟨b, s'⟩ := r
  cases b with
  | false =>
      refine ⟨h.grows, fun hr => ?_, h.marks, fun _ hr => ?_⟩
      · cases hr
      · cases hr
  | true =>
      cases key with
      | none =>
          refine ⟨h.grows, fun hr found hf => ⟨h.described hr found hf, ?_⟩, h.marks, ?_⟩
          · rintro k ⟨⟩
          · simpa using h.counts
      | some key =>
          refine ⟨h.grows.trans (.add ..), fun _ found hf => ⟨?_, ?_⟩, h.marks, fun hf _ k hk => ?_⟩
          · exact h.described rfl found ((MatchState.Grows.add ..).trans hf)
          · rintro k ⟨⟩
            exact hf.bindings.subset (List.mem_append_right _ (List.mem_singleton.2 rfl))
          · have operands := h.counts hf rfl k hk
            show (s'.add key (.node index)).count k ≤ _
            rw [MatchState.count_add, List.count_append]
            exact Nat.add_assoc .. ▸ Nat.add_le_add_right operands _

end Outcome

/-! ## Steps -/

theorem outcome_testSymbol (name : String) (isConstant : Bool) (value : String) (s : MatchState) :
    Outcome s (testSymbol c name isConstant value s) false true [] [name]
      (fun found => Describes c found (.symbol name isConstant) value) := by
  unfold testSymbol
  split
  · exact .fail s
  · rename_i known
    have known' : isConstant = true → (c.constant? value).isSome = true := by
      intro hc
      exact Option.isSome_iff_ne_none.2 (by simpa [hc] using known)
    split
    · rename_i b hb
      by_cases same : b = .value value
      · subst same
        rw [decide_eq_true rfl]
        refine .keep fun found hf => .symbol ?_ known'
        rw [MatchState.value?, hf.get? hb]
      · rw [decide_eq_false same]
        exact .fail s
    · rename_i fresh
      refine ⟨.add .., fun _ found hf => .symbol ?_ known', fun _ => rfl, fun _ _ k hk => ?_⟩
      · have added : (s.add name (.value value)).get? name = some (.value value) := by
          unfold MatchState.get? at fresh ⊢
          simp [MatchState.add, List.lookup_append, fresh]
        rw [MatchState.value?, hf.get? added]
      · show (s.add name (.value value)).count k ≤ _
        rw [MatchState.count_add, List.count_eq_zero.2 hk]
        exact Nat.le_add_right _ _

theorem testAll_cons (p : Pattern) (ps : List Pattern) (value : String) (values : List String)
    (s : MatchState) : testAll c (p :: ps) (value :: values) s =
      if value = "" then (false, s)
      else Pattern.andThen (test c p value s) (testAll c ps values) := by
  rw [testAll]
  split
  · rfl
  · obtain ⟨_ | _, s'⟩ := test c p value s <;> rfl

theorem testEither_pair (p q : Pattern) (a b : String) (s : MatchState) :
    testEither c [p, q] [a, b] s =
      if (Pattern.andThen (test c p a s.mark) (test c q b)).1 then
        Pattern.andThen (test c p a s.mark) (test c q b)
      else Pattern.andThen (test c q a
        (Pattern.andThen (test c p a s.mark) (test c q b)).2.revert) (test c p b) := by
  rw [testEither]
  generalize test c p a s.mark = first
  obtain ⟨_ | _, s₁⟩ := first
  · show _ = Pattern.andThen (test c q a s₁.revert) (test c p b)
    dsimp only
    obtain ⟨_ | _, s₂⟩ := test c q a s₁.revert <;> rfl
  · show _ = if (test c q b s₁).1 then test c q b s₁ else
      Pattern.andThen (test c q a (test c q b s₁).2.revert) (test c p b)
    dsimp only
    obtain ⟨_ | _, s₂⟩ := test c q b s₁
    · dsimp only
      obtain ⟨_ | _, s₃⟩ := test c q a s₂.revert <;> rfl
    · rfl

mutual
/-- What matching a pattern does. -/
theorem outcome_test : ∀ (p : Pattern) (value : String) (s : MatchState),
    Outcome s (test c p value s) p.exchanges p.isFlat p.keys p.symbols
      (fun found => Describes c found p value)
  | .operator opType inputs key, value, s => by
      rw [test, exchanges, isFlat, keys, symbols]
      split
      · exact .fail s
      · rename_i index n producer
        split
        · exact .fail s
        · rename_i fits
          simp only [ne_eq, decide_not, Bool.or_eq_true, Bool.not_eq_true', decide_eq_false_iff_not,
            not_or, Decidable.not_not, Bool.not_eq_false] at fits
          obtain ⟨⟨opType_eq, domain⟩, length⟩ := fits
          split
          · rename_i swapped
            rw [swapped, Bool.true_or, Bool.true_and]
            obtain ⟨commutative, two⟩ := Bool.and_eq_true_iff.1 swapped
            replace two := of_decide_eq_true two
            refine ((outcome_testEither inputs (operands n) s two length).bindKey key index).mono ?_
            rintro found ⟨described | described, bound⟩
            · exact .operator producer opType_eq domain (.inl rfl) described bound
            · exact .operator producer opType_eq domain (.inr ⟨commutative, two, rfl⟩) described
                bound
          · rename_i plain
            rw [Bool.eq_false_iff.2 plain, Bool.false_or, Bool.false_and, Bool.not_false,
              Bool.and_true]
            refine ((outcome_testAll inputs (operands n) s length).bindKey key index).mono ?_
            rintro found ⟨described, bound⟩
            exact .operator producer opType_eq domain (.inl rfl) described bound
  | .constant number, value, s => by
      rw [test]
      cases ht : c.constant? value with
      | none => exact .fail s
      | some t =>
          rw [Option.map_some, Option.getD_some]
          cases filled : t.isFilledWith number with
          | false => exact .fail s
          | true => exact .keep fun _ _ => .constant ⟨t, ht, filled⟩
  | .symbol name isConstant, value, s => by
      rw [test]
      exact outcome_testSymbol name isConstant value s

theorem outcome_testAll : ∀ (ps : List Pattern) (values : List String) (s : MatchState),
    ps.length = values.length →
    Outcome s (testAll c ps values s) (exchangesAny ps) (areFlat ps) (keysOf ps) (symbolsOf ps)
      (fun found => DescribesAll c found ps values)
  | [], [], s, _ => by
      rw [testAll]
      · exact .keep fun _ _ => .nil
      · simp
  | p :: ps, value :: values, s, length => by
      rw [testAll_cons, exchangesAny, areFlat, keysOf, symbolsOf]
      split
      · exact .fail s
      · refine ((outcome_test p value s).andThen
          (outcome_testAll ps values _ (Nat.succ.inj length))).mono ?_
        rintro found ⟨first, rest⟩
        exact .cons first rest

theorem outcome_testEither : ∀ (ps : List Pattern) (values : List String) (s : MatchState),
    ps.length = 2 → ps.length = values.length →
    Outcome s (testEither c ps values s) true (areFlat ps && !exchangesAny ps) (keysOf ps)
      (symbolsOf ps)
      (fun found => DescribesAll c found ps values ∨ DescribesAll c found ps values.reverse)
  | [p, q], [a, b], s, _, _ => by
      have first := (outcome_test p a s.mark).andThen (outcome_test q b (test c p a s.mark).2)
      have second := fun s => (outcome_test q a s).andThen (outcome_test p b (test c q a s).2)
      rw [testEither_pair]
      simp only [exchangesAny, areFlat, keysOf, symbolsOf, Bool.or_false, Bool.and_true,
        List.append_nil]
      refine (first.orElse (second _) (Bool.and_comm ..) List.perm_append_comm ?_).mono ?_
      · exact (List.perm_append_comm).subset
      · rintro found (⟨hp, hq⟩ | ⟨hq, hp⟩)
        · exact .inl (.cons hp (.cons hq .nil))
        · exact .inr (.cons hp (.cons hq .nil))
end

/-! ## Matches -/

variable {p : Pattern} {value : String} {found : MatchState}

theorem outcome_of_matches? (h : p.matches? c value = some found) :
    Outcome {} (true, found) p.exchanges p.isFlat p.keys p.symbols
      (fun found => Describes c found p value) :=
  matches?_eq_some h ▸ outcome_test p value {}

/-- A match describes how the value is computed. -/
theorem matches?_describes (h : p.matches? c value = some found) : Describes c found p value :=
  (outcome_of_matches? h).described rfl found (.refl found)

/-- The key of a matched node stands for it, if operands are not tried in two orders inside of
operands that are, and if no two names are the same. -/
theorem node?_of_matches? (flat : p.isFlat = true) (distinct : p.keys.Nodup)
    (apart : ∀ k ∈ p.keys, k ∉ p.symbols) (h : p.matches? c value = some found) {k : String}
    (hk : k ∈ p.keys) {i : Nat} (bound : (k, Binding.node i) ∈ found.bindings) :
    found.node? k = some i := by
  have once := (outcome_of_matches? h).counts flat rfl k (apart k hk)
  have start : ({} : MatchState).count k = 0 := rfl
  rw [start, Nat.zero_add] at once
  rw [MatchState.node?, MatchState.get?_of_count bound]
  exact Nat.le_trans once (List.nodup_iff_count_le_one.1 distinct k)

/-- Two differences of absolute values and sums, of which the first sum has a constant. -/
def sumOfDifferences : View where
  version := none
  graph := {
    inputs := [{ name := "v" }, { name := "w" }]
    initializers := [⟨"r", .scalar (2 : Int64)⟩]
    nodes := [
      { opType := "Abs", inputs := ["v"], outputs := ["a"] },
      { opType := "Add", inputs := ["w", "r"], outputs := ["b"] },
      { opType := "Sub", inputs := ["a", "b"], outputs := ["d"] },
      { opType := "Abs", inputs := ["v"], outputs := ["a2"] },
      { opType := "Add", inputs := ["w", "v"], outputs := ["b2"] },
      { opType := "Sub", inputs := ["a2", "b2"], outputs := ["d2"] },
      { opType := "Add", inputs := ["d", "d2"], outputs := ["y"] }]
    outputs := [{ name := "y" }] }
  facts := []
  surroundings := {}

/-- A difference whose first operand has a key. -/
def keyedDifference : Pattern :=
  binary "Sub" (operator "Abs" [any "x"] (some "k")) (binary "Add" (any "y") (any "z"))

/-- A difference of which the second operand adds a constant. -/
def shiftedDifference : Pattern :=
  binary "Sub" (operator "Abs" [any "p"] none) (binary "Add" (any "q") (anyConstant "c"))

/-- Bindings of an order that failed may stay when operands are tried in two orders at two depths.
Here the keyed difference can only be the second one, whose first operand is the node with index
three.  The key stands for the node of the first difference, with which it was tried before. -/
theorem node?_of_failed_order :
    shiftedDifference.matches? sumOfDifferences.computations "d2" = none ∧
      (sumOfDifferences.producer? "a2").map Prod.fst = some 3 ∧
      ((binary "Add" keyedDifference shiftedDifference).matches? sumOfDifferences.computations
        "y").bind (·.node? "k") = some 0 := by
  refine ⟨?_, ?_, ?_⟩
  all_goals decide +kernel

end Pattern
end TensorGraph
