import Mathlib
import TensorGraph.Proofs.Evaluation.Determined
import TensorGraph.Proofs.Message.RoundTrip
import TensorGraph.Proofs.Simplification.Rules
import TensorGraph.Proofs.Storage.Reread
import TensorGraph.Proofs.Storage.Restore

/-!
# Nodes that compute the same

Input:

* two nodes of a valid graph whose attributes, written and sorted, are the same
  (`Node.sameComputation`);
* attributes that are read back from what is written, as those of graphs that were read are
  (`Graph.ensures_restorable`), and that have different names.

Algorithm:

* reading is the inverse of writing, so both nodes have the same attributes in another order
  (`Node.perm_attributes`);
* no two attributes of a node have the same name, so the order does not matter, and both nodes have
  the same operator (`Node.ofNode_eq_of_sameComputation`);
* a deterministic operator makes the same of the same values.

Main results:

* `Graph.alike_of_sameComputation`: in every run, outputs of both nodes at the same position have
  equal values;
* `View.mergeNodes_sound`: nodes are merged with earlier ones, position by position, and readers get
  the values that they got before;
* `Graph.sameComputation_of_repeated`: the order of repeated attributes matters, though it is not
  compared.
-/

namespace TensorGraph

open Tensor (AllAlike)

variable {version : Option Int64} {chance : Generator}

/-! ## Attributes that are read back -/

/-- Whether an attribute is read back from the bytes that it is written in. -/
structure Attribute.Restorable (a : Attribute) : Prop where
  clean : a.toMessage.Clean
  short : a.toMessage.encode.length < 2 ^ 64
  reread : ofMessage a.toMessage = .ok a

namespace Attribute

/-- The attribute that is written in some bytes. -/
def restore? (bytes : Wire.Bytes) : Option Attribute :=
  (Message.Attribute.decode bytes).toOption.bind fun m => (ofMessage m).toOption

theorem Restorable.restore? {a : Attribute} (h : a.Restorable) :
    restore? a.toMessage.encode = some a := by
  unfold Attribute.restore?
  rw [Message.Attribute.decode_encode h.clean h.short]
  change (ofMessage a.toMessage).toOption = _
  rw [h.reread]
  rfl

end Attribute

theorem Node.ensures_reread_attributes (m : Message.Node) :
    Ensures (Node.ofMessage m) fun n =>
      ∀ a ∈ n.attributes, Attribute.ofMessage a.toMessage = .ok a := by
  rw [Node.ofMessage]
  simp only [List.mapM_subtype, List.unattach_attach]
  refine .ite (fun _ => .error) fun _ => ?_
  exact Ensures.bind (.mapM fun a _ => Attribute.ensures_reread a) fun as attributes =>
    .pure attributes

/-- The attributes of a graph that was read are read back, unless they are too long. -/
theorem Graph.ensures_restorable {m : Message.Graph} (clean : m.Clean) :
    Ensures (Graph.ofMessage m) fun g => ∀ n ∈ g.nodes, ∀ a ∈ n.attributes,
      a.toMessage.encode.length < 2 ^ 64 → a.Restorable := by
  have reread : Ensures (Graph.ofMessage m) fun g => ∀ n ∈ g.nodes, ∀ a ∈ n.attributes,
      Attribute.ofMessage a.toMessage = .ok a := by
    rw [Graph.ofMessage]
    simp only [List.mapM_subtype, List.unattach_attach]
    exact Ensures.bind (.mapM fun n _ => Node.ensures_reread_attributes n) fun ns nodes =>
      Ensures.bind_any fun _ => .pure nodes
  intro g read n hn a ha short
  have storable := ensures_ofMessage clean g read
  refine ⟨((storable.here.nodes n hn).attributes a ha).toMessage fun h hh => ?_, short,
    reread g read n hn a ha⟩
  exact clean_toMessage (storable.inside hn (Node.mem_subgraphs ha hh))

/-! ## Attributes in another order -/

namespace Node

/-- Whether the attributes of a node are read back from what is written, and none is repeated. -/
structure Comparable (n : Node) : Prop where
  restorable : ∀ a ∈ n.attributes, a.Restorable
  nodup : (n.attributes.map Attribute.name).Nodup

variable {n m : Node}

/-- Nodes with the same written attributes have the same attributes. -/
theorem perm_attributes (hn : n.Comparable) (hm : m.Comparable)
    (same : n.storedAttributes.Perm m.storedAttributes) : n.attributes.Perm m.attributes := by
  have restored : ∀ {k : Node}, k.Comparable →
      k.storedAttributes.map (fun p => Attribute.restore? p.2) = k.attributes.map some := by
    intro k hk
    unfold storedAttributes
    rw [List.map_map]
    exact List.map_congr_left fun a ha => (hk.restorable a ha).restore?
  have all := same.map fun p => Attribute.restore? p.2
  rw [restored hn, restored hm] at all
  exact (List.map_perm_map_iff (Option.some_injective _)).1 all

/-- When no name is repeated, each attribute is found by its name. -/
theorem attribute?_eq_some_iff (nodup : (n.attributes.map Attribute.name).Nodup) {name : String}
    {v : AttributeValue} :
    n.attribute? name = some v ↔ ∃ a ∈ n.attributes, a.name = name ∧ a.value = v := by
  unfold attribute?
  rw [Option.map_eq_some_iff]
  constructor
  · rintro ⟨a, ha, rfl⟩
    exact ⟨a, List.mem_of_find?_eq_some ha, by simpa using List.find?_some ha, rfl⟩
  · rintro ⟨a, ha, rfl, rfl⟩
    obtain ⟨b, hb⟩ : ∃ b, n.attributes.find? (fun b => b.name == a.name) = some b :=
      Option.isSome_iff_exists.1 (List.find?_isSome.2 ⟨a, ha, beq_self_eq_true a.name⟩)
    have name : b.name = a.name := by simpa using List.find?_some hb
    obtain rfl := List.inj_on_of_nodup_map nodup (List.mem_of_find?_eq_some hb) ha name
    exact ⟨b, hb, rfl⟩

/-- Then their order does not matter. -/
theorem attribute?_of_perm (nodup : (n.attributes.map Attribute.name).Nodup)
    (perm : n.attributes.Perm m.attributes) (name : String) :
    m.attribute? name = n.attribute? name := by
  have nodup' : (m.attributes.map Attribute.name).Nodup := (perm.map _).nodup_iff.1 nodup
  refine Option.ext fun v => ?_
  rw [attribute?_eq_some_iff nodup, attribute?_eq_some_iff nodup']
  simp only [perm.mem_iff]

/-- What nodes that compute the same have in common. -/
theorem sameComputation_iff : n.sameComputation m = true ↔
    n.opType = m.opType ∧ n.isDefaultDomain = m.isDefaultDomain ∧
      (n.isDefaultDomain = true ∨ n.domain = m.domain) ∧ n.inputs = m.inputs ∧
      n.outputs.length = m.outputs.length ∧ n.storedAttributes.Perm m.storedAttributes := by
  unfold sameComputation
  simp only [Bool.and_eq_true, Bool.or_eq_true, decide_eq_true_eq, List.isPerm_iff, and_assoc]

theorem sameComputation_symm (same : n.sameComputation m = true) : m.sameComputation n = true := by
  obtain ⟨opType, default, domain, inputs, outputs, stored⟩ := sameComputation_iff.1 same
  exact sameComputation_iff.2 ⟨opType.symm, default.symm, default ▸ domain.imp_right Eq.symm,
    inputs.symm, outputs.symm, stored.symm⟩

/-- Nodes that compute the same have the same operator. -/
theorem ofNode_eq_of_sameComputation (hn : n.Comparable) (hm : m.Comparable)
    (same : n.sameComputation m = true) (version : Option Int64) :
    Operator.ofNode version m = Operator.ofNode version n := by
  obtain ⟨opType, domain, -, -, outputs, stored⟩ := sameComputation_iff.1 same
  exact Operator.ofNode_congr domain.symm opType.symm outputs.symm
    (attribute?_of_perm hn.nodup (perm_attributes hn hm stored)) version

/-! ## Nodes with the same operator -/

variable {V : Scope Tensor} {ts : List Tensor}

/-- A node that draws nothing makes the same under another name, and for other outputs. -/
theorem follows_of_attributes_eq (opType : m.opType = n.opType) (domain : m.domain = n.domain)
    (inputs : m.inputs = n.inputs) (outputs : m.outputs.length = n.outputs.length)
    (attributes : m.attributes = n.attributes) (drawless : ¬ n.Draws version) :
    n.Follows Tensor.Alike version chance chance id m := by
  have self := (reworks_self fun p _ =>
    Graph.follows_self (R := Tensor.Alike) (Graph.everywhere_sameDraws version chance p.2) :
      n.Reworks _ n)
  have reads : ∀ x, x ∈ m.reads ↔ x ∈ n.reads := fun x => by
    rw [mem_reads, mem_reads]
    unfold presentInputs subgraphs
    rw [inputs, attributes]
  refine ⟨⟨opType, domain, outputs, attributes ▸ self.attributes⟩, ?_, fun _ _ => Iff.rfl, ?_,
    fun draws => absurd draws drawless⟩
  · rw [inputs, List.map_id]
  · simp [reads]

/-- Nodes with the same deterministic operator make the same of the same inputs. -/
theorem Yields.of_ofNode_eq (h : n.Yields version chance V ts)
    (deterministic : n.Deterministic version)
    (operator : Operator.ofNode version m = Operator.ofNode version n)
    (inputs : m.inputs = n.inputs) (outputs : m.outputs.length = n.outputs.length) :
    ∃ us, m.Yields version chance V us ∧ AllAlike ts us := by
  -- a third node has the names of the first one, so that both run alike, and else is the second one
  let k : Node := { m with name := n.name, outputs := n.outputs }
  have domain : k.isDefaultDomain = m.isDefaultDomain := rfl
  have read : Operator.ofNode version k = Operator.ofNode version n :=
    (Operator.ofNode_congr domain rfl outputs.symm (fun _ => rfl) version).trans operator
  have makes : k.Yields version chance V ts := by
    obtain ⟨o, args, hread, hargs, hout⟩ := h
    refine ⟨o, args, read.trans hread, ?_, ?_⟩
    · unfold arguments at hargs ⊢
      rwa [inputs]
    · cases o with
      | kernel o =>
          have drawless := Kernel.drawsByChance_of_isDeterministic (deterministic _ hread)
          unfold Operator.runNode at hout ⊢
          dsimp only at hout ⊢
          rwa [o.run_eq_of_not_drawsByChance drawless]
      | branch onTrue onFalse => exact hout
      | loop body => exact hout
  have deterministic' : k.Deterministic version := fun o ho =>
    deterministic o (read.symm.trans ho)
  have follows : k.Follows Tensor.Alike version chance chance id m :=
    follows_of_attributes_eq rfl rfl rfl outputs rfl deterministic'.not_draws
  exact follows.yields (fun x _ => Tensor.rel_alike_refl _) makes

end Node

namespace Graph

variable {g : Graph} {n m : Node}

/-- When two nodes of a valid graph compute the same and are deterministic, outputs that both have
at the same position have equal values in every run. -/
theorem alike_of_sameComputation {outer : List String} {inputs scope V : Scope Tensor}
    (valid : g.validate outer = .ok ()) (comparable : ∀ n ∈ g.nodes, n.Comparable)
    (hn : n ∈ g.nodes) (hm : m ∈ g.nodes) (same : n.sameComputation m = true) (deterministic : n.Deterministic version)
    (run : g.valuesIn version chance inputs scope = .ok V) {i : Nat} {x y : String}
    (hx : n.outputs[i]? = some x) (hy : m.outputs[i]? = some y) (hx' : x ≠ "") (hy' : y ≠ "") :
    ∃ t u, V.get? x = some t ∧ V.get? y = some u ∧ t.Alike u := by
  have unique := Unique.of_nodup (validate_eq_ok_iff.1 valid).1
  obtain ⟨solves, -⟩ := solves_of_valuesIn unique.distinct (fun n _ => n.isLocal) run
  obtain ⟨ts, yields, bound⟩ := solves.nodes n hn
  obtain ⟨us, yields', bound'⟩ := solves.nodes m hm
  obtain ⟨-, -, -, inputs, outputs, -⟩ := Node.sameComputation_iff.1 same
  have operator :=
    Node.ofNode_eq_of_sameComputation (comparable n hn) (comparable m hm) same version
  obtain ⟨us', yields'', alike⟩ :=
    yields.of_ofNode_eq deterministic operator inputs.symm outputs.symm
  obtain rfl := yields'.unique yields''
  obtain ⟨t, ht, hti⟩ := bound.exists_get hx hx'
  obtain ⟨u, hu, hui⟩ := bound'.exists_get hy hy'
  have both : Option.Rel Tensor.Alike (some t) (some u) := hti ▸ hui ▸ rel_getElem? alike i
  have value := bound.values _ ht hx'
  have value' := Tensor.rel_alike_trans both (bound'.values _ hu hy')
  dsimp only at value value'
  generalize V.get? x = a at value
  generalize V.get? y = b at value'
  cases value with
  | some ta =>
      cases value' with
      | some tb => exact ⟨_, _, rfl, rfl, ta.symm.trans tb⟩

/-- A node that joins a matrix to itself, with two axes of which it takes the first. -/
def joiningTwice (axis other : Int64) (output : String) : Node where
  opType := "Concat"
  inputs := ["x", "x"]
  outputs := [output]
  attributes := [{ name := "axis", value := .int axis }, { name := "axis", value := .int other }]

/-- A graph that joins a matrix to itself along either axis. -/
def joinsTwice : Graph where
  inputs := [{ name := "x" }]
  nodes := [joiningTwice 0 1 "tall", joiningTwice 1 0 "wide"]
  outputs := [{ name := "tall" }, { name := "wide" }]

/-- When an attribute is repeated, the order matters: the first one counts.  It is not compared, so
that nodes that make different values are taken to compute the same. -/
theorem sameComputation_of_repeated :
    joinsTwice.validate [] = .ok () ∧
      (joiningTwice 0 1 "tall").sameComputation (joiningTwice 1 0 "wide") = true ∧
      Operator.ofNode none (joiningTwice 0 1 "tall") = .ok (.kernel (.concat 0)) ∧
      Operator.ofNode none (joiningTwice 1 0 "wide") = .ok (.kernel (.concat 1)) ∧
      joinsTwice.run none ⟨0⟩ [("x", ⟨[1, 1], .int64 #[3], none⟩)] =
        .ok [⟨[2, 1], .int64 #[3, 3], none⟩, ⟨[1, 2], .int64 #[3, 3], none⟩] := by
  refine ⟨by cbv, by cbv, rfl, rfl, ?_⟩
  exact runIn_of_next? [0, 1] (by decide +kernel) rfl rfl (by cbv)

end Graph

/-! ## Merged nodes -/

namespace View

variable {v : View} {index : Nat} {n : Node} {change : Change}

/-- Each output of a merged node is forwarded to the output of an earlier node at the same position,
and in every run both have equal values. -/
theorem mergeNodes_sound {outer : List String} (valid : v.graph.validate outer = .ok ())
    (comparable : ∀ n ∈ v.graph.nodes, n.Comparable) (hn : v.graph.nodes[index]? = some n)
    (h : v.mergeNodes index n = some change) :
    ∃ (earlier : Node) (pairs : List (String × String)),
      earlier ∈ v.graph.nodes.take index ∧ change = .forward pairs ∧
      (∀ (i : Nat) (x : String), n.outputs[i]? = some x → x ≠ "" →
        ∃ y, earlier.outputs[i]? = some y ∧ y ≠ "" ∧ (x, y) ∈ pairs) ∧
      ∀ p ∈ pairs, ∃ i : Nat, n.outputs[i]? = some p.1 ∧ earlier.outputs[i]? = some p.2 ∧
        ∀ (chance : Generator) (inputs scope V : Scope Tensor),
          v.graph.valuesIn v.version chance inputs scope = .ok V →
            ∃ t u, V.get? p.1 = some t ∧ V.get? p.2 = some u ∧ t.Alike u := by
  obtain ⟨earlier, pairs, operator, hearlier, same, read, hoperator, hpairs, rfl⟩ :=
    exists_earlier_of_mergeNodes h
  have deterministic : n.Deterministic v.version := fun _ read' => by
    cases read.symm.trans read'
    exact hoperator
  obtain ⟨rfl, named⟩ := pairOutputs?_eq_zip hpairs
  have length := (Node.sameComputation_iff.1 same).2.2.2.2.1
  refine ⟨earlier, _, hearlier, rfl, fun i x hx hne => ?_, fun p hp => ?_⟩
  · obtain ⟨hi, rfl⟩ := List.getElem?_eq_some_iff.1 hx
    have hi' : i < earlier.outputs.length := length ▸ hi
    have pair : (n.outputs[i], earlier.outputs[i]) ∈
        (n.outputs.zip earlier.outputs).filter fun p => p.1 ≠ "" := by
      refine List.mem_filter.2 ⟨List.mem_iff_getElem.2 ⟨i, ?_, List.getElem_zip⟩, ?_⟩
      · rw [List.length_zip]
        omega
      · simpa using hne
    exact ⟨_, List.getElem?_eq_getElem hi', named _ pair, pair⟩
  · obtain ⟨hzip, hne⟩ := List.mem_filter.1 hp
    obtain ⟨i, hi⟩ := List.getElem?_of_mem hzip
    obtain ⟨hx, hy⟩ := List.getElem?_zip_eq_some.1 hi
    refine ⟨i, hx, hy, fun chance inputs scope V run => ?_⟩
    exact Graph.alike_of_sameComputation valid comparable (List.mem_of_getElem? hn)
      (List.mem_of_mem_take hearlier) (Node.sameComputation_symm same) deterministic run hx hy
      (by simpa using hne) (named p hp)

end View
end TensorGraph
