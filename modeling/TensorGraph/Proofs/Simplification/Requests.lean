import Mathlib
import TensorGraph.Proofs.Graph.Validity
import TensorGraph.Proofs.Simplification.Progress

/-!
# New names in a graph

Input:

* a graph that is valid in its surroundings, and stems for which rules ask for names.

Algorithm:

* the names of the surroundings are used, and those that the graph and its nested graphs define
  (`Graph.takenNames`);
* a generator answers each request with a fresh name, which is used from then on (`Answers`).

In a valid graph nothing is read that is not defined there or outside (`Graph.everywhere_used_visible`), so
names that are only read need not be collected.  A nested graph is valid in the surroundings that it sees
(`Graph.validate_nested`), so that the same holds when the rules are applied to it.

Main results:

* `sweepFrom_requests`: all names that a sweep takes come from such requests;
* `Graph.requested_names_fresh`: they occur neither in the graph nor outside, and are not the same.
-/

namespace TensorGraph

namespace Graph

variable {g : Graph} {outer : List String}

/-! ## Names that occur in a valid graph -/

/-- A nested graph is valid where it sees the names of the graph around it. -/
theorem validate_nested (valid : g.validate outer = .ok ()) {n : Node} (hn : n ∈ g.nodes)
    {p : String × Graph} (hp : p ∈ n.subgraphs) :
    p.2.validate (g.definedNames ++ outer) = .ok () := by
  obtain ⟨nodup, captures, controlled⟩ := validate_eq_ok_iff.1 valid
  rw [allDefinitions_eq] at nodup
  have inner : n.innerNames.Nodup := (List.nodup_flatMap.1 nodup.of_append_right).1 n hn
  have visible : ∀ x ∈ p.2.captures, x ∈ g.definedNames ++ outer := by
    intro x hx
    have := ((captures_subset_iff.1 captures).1 n hn).2 p hp x hx
    rwa [List.mem_append, mem_definitions, ← List.mem_append] at this
  exact validate_eq_ok_iff.2
    ⟨(List.nodup_flatMap.1 inner).1 p hp, visible, controlled.inside hn hp⟩

/-- What a valid graph defines or reads is defined in it or outside. -/
theorem mem_of_valid (valid : g.validate outer = .ok ()) {x : String}
    (hx : x ∈ g.definedNames ∨ x ∈ g.uses) : x ∈ g.definedNames ++ outer := by
  obtain ⟨-, captures, -⟩ := validate_eq_ok_iff.1 valid
  have read : x ∈ g.definedNames ∨ x ∈ g.captures := by
    rcases hx with hx | hx
    · exact Or.inl hx
    · by_cases hd : x ∈ g.definedNames
      · exact Or.inl hd
      · refine Or.inr (mem_captures.2 ⟨?_, hd⟩)
        simpa [uses] using hx
  exact List.mem_append.2 (read.imp_right (captures x))

/-- At every depth of a valid graph all names that are defined or read are defined at some depth or
outside. -/
theorem everywhere_used_visible (valid : g.validate outer = .ok ()) :
    g.Everywhere fun h => ∀ x, x ∈ h.definedNames ∨ x ∈ h.uses → x ∈ outer ++ g.allNames := by
  induction g using nested_induction generalizing outer with
  | step g ih =>
      refine .intro (fun x hx => ?_) fun n hn p hp => ?_
      · have := mem_of_valid valid hx
        simp only [List.mem_append] at this ⊢
        rw [mem_allNames, allDefinitions_eq, List.mem_append, mem_definitions]
        tauto
      · refine (ih n hn p hp (validate_nested valid hn hp)).mono fun h visible x hx => ?_
        have := visible x hx
        simp only [List.mem_append, mem_allNames, allDefinitions_eq g, mem_definitions] at this ⊢
        have inner : x ∈ p.2.allDefinitions → x ∈ g.innerNames := fun hx =>
          mem_innerNames.2 ⟨n, hn, Node.mem_innerNames.2 ⟨p, hp, hx⟩⟩
        tauto

end Graph

/-! ## Requests in a sweep -/

section

variable {v : View} {n : Node} {index : Nat} {taken taken' : List String}

/-- Whether names are taken by requests, when some are taken already. -/
def Requested (taken taken' : List String) : Prop :=
  ∃ stems names, Answers Nat taken stems names ∧ taken' = names.reverse ++ taken

theorem Requested.refl (taken : List String) : Requested taken taken := ⟨[], [], .nil, rfl⟩

theorem Requested.trans {taken'' : List String} (h : Requested taken taken')
    (h' : Requested taken' taken'') : Requested taken taken'' := by
  obtain ⟨stems, names, answers, rfl⟩ := h
  obtain ⟨stems', names', answers', rfl⟩ := h'
  exact ⟨stems ++ stems', names ++ names', answers.append answers', by simp⟩

/-- A rule takes names by requests. -/
theorem Rule.propose_requests (r : Rule) : Requested taken (r.propose v taken index n).1 := by
  cases r with
  | fuseNormalizationIntoConv =>
      show Requested taken (v.fuseNormalizationIntoConv taken n).1
      unfold View.fuseNormalizationIntoConv
      split
      · exact .refl taken
      · rename_i found _
        exact ⟨[found.weightName ++ "_bn_fused", found.weightName ++ "_bn_fused_bias"], _,
          answers_nat_iff.2 rfl, rfl⟩
  | _ => exact .refl taken

theorem firstProposal_requests (rules : List Rule) :
    Requested taken (firstProposal v index n rules taken).1 := by
  induction rules generalizing taken with
  | nil => exact .refl taken
  | cons rule rest ih =>
      have first : Requested taken (rule.propose v taken index n).1 := rule.propose_requests
      unfold firstProposal
      split
      · rename_i taken' change hpropose
        rw [hpropose] at first
        split
        · exact first
        · exact first.trans ih
      · rename_i taken' hpropose
        rw [hpropose] at first
        exact first.trans ih

end

/-- A sweep takes names by requests. -/
theorem sweepFrom_requests (rules : List Rule) (version : Option Int64) (facts : Scope Facts)
    (around : Surroundings) (path : String) (index : Nat) (s : SweepState) :
    Requested s.taken
      (sweepFrom (Rule.proposer rules version facts around) path index s).taken :=
  sweepFrom_induct (Q := fun taken _ => Requested s.taken taken) _ path index
    (fun _ _ _ _ h _ => h.trans (firstProposal_requests rules))
    (fun _ _ _ _ _ _ _ h _ _ _ => h.trans (firstProposal_requests rules)) (.refl s.taken)

namespace Graph

/-- The names that no new value of a graph may have when rules are applied to it. -/
def takenNames (g : Graph) (around : Surroundings) : List String := around.names ++ g.allNames

/-- Whether names are new to a graph at every depth and to its surroundings, and no two of them are the same.
-/
structure NewNames (g : Graph) (around : Surroundings) (names : List String) : Prop where
  nodup : names.Nodup
  outside : ∀ name ∈ names, name ∉ around.names
  inside : ∀ name ∈ names, g.Everywhere fun h => name ∉ h.definedNames ∧ name ∉ h.uses

/-- What a generator answers, however it counts, is new to a valid graph. -/
theorem newNames_of_answers {g : Graph} {around : Surroundings}
    (valid : g.validate around.names = .ok ()) {κ : Type} [OfNat κ 0] [OfNat κ 1] [Add κ] [ToString κ]
    {stems names : List String} (answers : Answers κ (g.takenNames around) stems names) :
    g.NewNames around names := by
  obtain ⟨nodup, fresh⟩ := answers.fresh
  refine ⟨nodup, fun name hname hused => ?_, fun name hname => ?_⟩
  · exact fresh name hname (List.mem_append_left _ hused)
  · exact (everywhere_used_visible valid).mono fun h visible =>
      ⟨fun hd => fresh name hname (visible name (Or.inl hd)),
        fun hu => fresh name hname (visible name (Or.inr hu))⟩

/-- Names that are asked for in a valid graph are new.  Any requests one after the other are answered, each
search has an end, and with numbers of 32 bits the answers are the same as long as these can count the
names.  There is one answer for each request.  No two of them are the same, and none is a name of the
surroundings or is defined or read in the graph or in a nested graph at any depth, however they were
counted.  A nested graph is valid in the surroundings that it sees.  When rules are applied to the graph
they take names by such requests only. -/
theorem requested_names_fresh {g : Graph} {around : Surroundings}
    (valid : g.validate around.names = .ok ()) :
    (∀ stems names : List String, Answers Nat (g.takenNames around) stems names ↔
        names = freshNames (g.takenNames around) stems) ∧
      (∀ stems names : List String, (g.takenNames around).length + stems.length < 2 ^ 31 →
        (Answers Int32 (g.takenNames around) stems names ↔
          names = freshNames (g.takenNames around) stems)) ∧
      (∀ stems names : List String,
        Answers Nat (g.takenNames around) stems names ∨
          Answers Int32 (g.takenNames around) stems names →
        names.length = stems.length ∧ g.NewNames around names) ∧
      (∀ (facts : Scope Facts), ∀ n ∈ g.nodes, ∀ p ∈ n.subgraphs,
        p.2.validate (around.enter g facts).names = .ok ()) ∧
      ∀ (rules : List Rule) (version : Option Int64) (facts : Scope Facts) (path : String),
        Requested (g.takenNames around)
          (sweepFrom (Rule.proposer rules version facts around) path 0
            { graph := g, taken := g.takenNames around }).taken := by
  refine ⟨fun stems names => answers_nat_iff, fun stems names few => ?_, fun stems names h => ?_,
    fun facts n hn p hp => validate_nested valid hn hp,
    fun rules version facts path => sweepFrom_requests rules version facts around path 0
      { graph := g, taken := g.takenNames around }⟩
  · have bound : (2 : Nat) ^ 31 = 2147483647 + 1 := rfl
    rw [bound] at few
    exact answers_iff countsTo_int32 (Nat.le_of_lt_succ few)
  · rcases h with answers | answers
    · exact ⟨answers.length_eq, newNames_of_answers valid answers⟩
    · exact ⟨answers.length_eq, newNames_of_answers valid answers⟩

/-- A graph whose nested graph makes the value `w_2` of an outer value `w`. -/
def numbering : Graph where
  nodes := [{
    opType := "Scan"
    inputs := ["w"]
    outputs := ["w_1"]
    attributes := [{
      name := "body"
      value := .graph {
        nodes := [{ opType := "Neg", inputs := ["w"], outputs := ["w_2"] }]
        outputs := [{ name := "w_2" }] } }] }]
  outputs := [{ name := "w_1" }]

/-- The names of the surroundings, of the graph and of the nested graph are passed over. -/
theorem requested_names_fresh_numbering :
    numbering.validate ["w"] = .ok () ∧
      numbering.takenNames { names := ["w"] } = ["w", "w_1", "w_2"] ∧
      Answers Int32 (numbering.takenNames { names := ["w"] }) ["w", "v", "w"] ["w_3", "v", "w_4"] ∧
      numbering.NewNames { names := ["w"] } ["w_3", "v", "w_4"] := by
  have valid : numbering.validate ["w"] = .ok () := by cbv
  have taken : numbering.takenNames { names := ["w"] } = ["w", "w_1", "w_2"] := by cbv
  have names : freshNames ["w", "w_1", "w_2"] ["w", "v", "w"] = ["w_3", "v", "w_4"] := by cbv
  obtain ⟨-, counted, new, -, -⟩ := @requested_names_fresh _ { names := ["w"] } valid
  have answers : Answers Int32 (numbering.takenNames { names := ["w"] }) ["w", "v", "w"]
      ["w_3", "v", "w_4"] :=
    (counted _ _ (by rw [taken]; decide)).2 (by rw [taken, names])
  exact ⟨valid, taken, answers, (new _ _ (Or.inr answers)).2⟩

end Graph
end TensorGraph
