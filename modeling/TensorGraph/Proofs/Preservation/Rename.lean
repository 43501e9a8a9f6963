import Mathlib
import TensorGraph.Proofs.Evaluation.Redirect
import TensorGraph.Proofs.Graph.Rename
import TensorGraph.Proofs.Preservation.Prune

/-!
# Runs of renamed graphs

Input:

* a valid graph, a name `old` that it defines, and a name `new` that occurs nowhere in it.

Algorithm:

* each node of the renamed graph follows the node of the graph at the same position
  (`Node.follows_redirect`), and each value has its new name;
* so the renamed graph is an image of the graph (`Graph.image_renameValue`), and both run alike.

Main result:

* `Graph.renameValue_preserves`: the renamed graph is valid, it is the graph under another name, and
  it gives the same outputs when its inputs are renamed alike.
-/

namespace TensorGraph
namespace Graph

variable {version : Option Int64} {chance chance' : Generator} {g : Graph} {old new : String}

/-- Whether nodes draw the same random numbers before and after a value is renamed.  A node without a
name is called by its first output, so that it may draw others when that is renamed. -/
def DrawsRenamed (version : Option Int64) (chance chance' : Generator) (old new : String)
    (g : Graph) : Prop :=
  ∀ n ∈ g.nodes, (n.Draws version →
      chance.forName n.displayName = chance'.forName (n.rename old new).displayName) ∧
    ∀ p ∈ n.subgraphs, p.2.Everywhere (SameDraws version chance chance')

/-- They do when all that draw have names of their own. -/
theorem drawsRenamed_of_settled (settled : ∀ n ∈ g.nodes, n.Settled version) :
    g.DrawsRenamed version chance chance old new := fun n hn =>
  have kept (draws : n.Draws version) : (n.rename old new).displayName = n.displayName :=
    (settled n hn).displayName draws rfl
  ⟨fun draws => congrArg chance.forName (kept draws).symm,
    fun p _ => everywhere_sameDraws version chance p.2⟩

/-- The constants keep their values. -/
theorem get?_constants_renameValue (nodup : g.initializerNames.Nodup)
    (fresh : new ∉ g.initializerNames) {x : String} (hx : x ≠ new) :
    (g.renameValue old new).constants.get? (substituteName old new x) = g.constants.get? x := by
  have names := initializerNames_renameValue g old new
  by_cases hi : x ∈ g.initializerNames
  · obtain ⟨i, hmem, rfl⟩ := List.mem_map.1 hi
    have nodup' : (g.renameValue old new).initializerNames.Nodup := by
      rw [names]
      exact List.Nodup.map_on (fun x hx y hy => substituteName_inj (fun h => fresh (h ▸ hx))
        fun h => fresh (h ▸ hy)) nodup
    have hmem' : { i with name := substituteName old new i.name } ∈
        (g.renameValue old new).initializers := by
      rw [renameValue_eq]
      exact List.mem_map_of_mem hmem
    rw [get?_constants_of_mem nodup hmem, ← get?_constants_of_mem nodup' hmem']
  · rw [get?_constants_eq_none hi, get?_constants_eq_none]
    rw [names, substituteName_mem_map_iff fresh hx]
    exact hi

/-- A renamed graph is an image of the graph. -/
theorem image_renameValue (hold : old ≠ "") (hnew : new ≠ "") (unique : g.Unique)
    (fresh : new ∉ g.mentions)
    (draws : g.DrawsRenamed version chance chance' old new) :
    g.Image Eq version chance chance' (substituteName old new) (g.renameValue old new) := by
  have undefined := not_mem_definedNames_of_not_mem_mentions fresh
  have unmade := not_mem_innerNames_of_not_mem_mentions fresh
  have used : ∀ x, x ∈ g.definedNames ∨ x ∈ g.captures → x ≠ new := by
    rintro x (hx | hx) rfl
    · exact undefined hx
    · exact fresh (captures_subset_mentions hx)
  have notInput : new ∉ g.inputNames := fun h => undefined (mem_definedNames.2 (Or.inl h))
  have notConstant : new ∉ g.initializerNames := fun h =>
    undefined (mem_definedNames.2 (Or.inr (Or.inl h)))
  refine ⟨?_, ?_, inputNames_renameValue g old new, fun x hx => ?_, fun o ho x hx heq => ?_,
    fun x hx hin => ?_, fun x hx => ?_⟩
  · rw [renameValue_eq, List.forall₂_map_right_iff, List.forall₂_same]
    intro n hn
    refine ⟨Node.follows_redirect hold hnew (fun hi => unmade (mem_innerNames.2 ⟨n, hn, hi⟩))
      (List.length_map _) rfl (draws n hn).1 (draws n hn).2, rfl,
      fun o _ => substituteName_eq_empty_iff hold hnew⟩
  · rw [renameValue_eq, List.forall₂_map_right_iff, List.forall₂_same]
    exact fun _ _ => rfl
  · rw [get?_constants_renameValue unique.nodup_initializerNames notConstant (used x (Or.inl hx))]
    exact Tensor.Likeness.rel_refl _
  · exact substituteName_inj (used x hx)
      (used o (Or.inl (mem_definedNames.2 (Or.inr (Or.inr ho))))) heq
  · rwa [inputNames_renameValue, substituteName_mem_map_iff notInput (used x (Or.inl hx))] at hin
  · have hne := used x (Or.inr hx)
    rw [inputNames_renameValue, initializerNames_renameValue,
      substituteName_mem_map_iff notInput hne, substituteName_mem_map_iff notConstant hne]
    exact not_given_of_not_mem (mem_captures.1 hx).2

/-- A value that a valid graph defines can be renamed to a name that occurs nowhere in it.  The
renamed graph is valid in the same scope.  It is the graph with the other name for the value at every
depth, and in the graph's own declarations, and is renamed back to the graph.  Every run with the
inputs under their new names gives the same outputs, or fails as it did before, when the nodes draw
the same random numbers. -/
theorem renameValue_preserves {outer : List String} (valid : g.validate outer = .ok ())
    (defined : old ∈ g.definedNames) (fresh : new ∉ g.mentions) (hold : old ≠ "")
    (hnew : new ≠ "") :
    (g.renameValue old new).validate outer = .ok () ∧
    g.renameValue old new =
      { g.mapNames (substituteName old new) with
        valueInfo := g.valueInfo.map (renameInfo old new) } ∧
    (g.renameValue old new).renameValue new old = g ∧
    ∀ version chance chance' inputs inputs' scope,
      g.DrawsRenamed version chance chance' old new →
      (∀ x ∈ g.inputNames, Scope.get? inputs' (substituteName old new x) = Scope.get? inputs x) →
        EndsAlike Eq (g.runIn version chance inputs scope)
          ((g.renameValue old new).runIn version chance' inputs' scope) := by
  have unique := Unique.of_nodup (validate_eq_ok_iff.1 valid).1
  have undefined := unique.not_mem_innerNames defined
  refine ⟨renameValue_valid hold hnew valid defined fresh, renameValue_eq_mapNames hold undefined,
    renameValue_renameValue hold hnew undefined fresh, ?_⟩
  intro version chance chance' inputs inputs' scope draws renamed
  have image := image_renameValue hold hnew unique fresh draws
  have given : ∀ x ∈ g.inputNames,
      Option.Rel Eq (inputs.get? x) (inputs'.get? (substituteName old new x)) := fun x hx => by
    rw [renamed x hx]
    exact Tensor.Likeness.rel_refl _
  have outside : ∀ x ∈ g.captures,
      Option.Rel Eq (scope.get? x) (scope.get? (substituteName old new x)) := fun x hx => by
    have hne : x ≠ old := fun heq => (mem_captures.1 hx).2 (heq ▸ defined)
    rw [substituteName_of_ne hne]
    exact Tensor.Likeness.rel_refl _
  have alike := image.runIn given outside
  rwa [List.forall₂_eq_eq_eq] at alike

/-- A graph that gives its input to a graph nested two deep. -/
def passesKept : Graph where
  inputs := [{ name := "kept" }, { name := "c" }]
  nodes := [whenTrue whenKept "y" "z"]
  outputs := [{ name := "y" }, { name := "kept" }]

/-- The value that is given to the nested graph is renamed in it, and the run is the same. -/
theorem renameValue_passesKept :
    passesKept.validate [] = .ok () ∧ "kept" ∈ passesKept.definedNames ∧
      "x" ∉ passesKept.mentions ∧ "kept" ≠ "" ∧ "x" ≠ "" ∧
      passesKept.DrawsRenamed none ⟨0⟩ ⟨0⟩ "kept" "x" ∧
      (passesKept.renameValue "kept" "x").validate [] = .ok () ∧
      (passesKept.renameValue "kept" "x").run none ⟨0⟩
        [("x", .scalar (4 : Int64)), ("c", .scalar true)] =
          .ok [.scalar (8 : Int64), .scalar (4 : Int64)] := by
  have valid : passesKept.validate [] = .ok () := by cbv
  have defined : "kept" ∈ passesKept.definedNames := by decide
  have names : passesKept.mentions = ["kept", "c", "y", "kept", "c", "y", "u", "c", "u", "t",
    "kept", "kept", "t", "v", "v", "z", "z"] := by cbv
  have fresh : "x" ∉ passesKept.mentions := by
    rw [names]
    decide
  have draws : passesKept.DrawsRenamed none ⟨0⟩ ⟨0⟩ "kept" "x" := by
    refine drawsRenamed_of_settled fun n hn => ?_
    cases List.mem_singleton.1 hn
    rintro ⟨k, hk, -⟩
    cases hk
  have run : passesKept.run none ⟨0⟩ [("kept", .scalar (4 : Int64)), ("c", .scalar true)] =
      .ok [.scalar (8 : Int64), .scalar (4 : Int64)] := by
    let scope : Scope Tensor := [("c", .scalar true), ("kept", .scalar (4 : Int64))]
    have inner : doublesKept.runIn none ⟨0⟩ [] scope = .ok [.scalar (8 : Int64)] :=
      runIn_of_next? [0] (by decide +kernel) rfl rfl rfl
    have middle : whenKept.runIn none ⟨0⟩ [] scope = .ok [.scalar (8 : Int64)] :=
      runIn_of_next? [0] (by decide +kernel) rfl
        (Option.bind_eq_some_iff.2 ⟨_, next?_whenTrue (by decide) rfl inner, rfl⟩) rfl
    exact runIn_of_next? [0] (by decide +kernel) rfl
      (Option.bind_eq_some_iff.2 ⟨_, next?_whenTrue (by decide) rfl middle, rfl⟩) rfl
  obtain ⟨valid', -, -, runs⟩ := renameValue_preserves valid defined fresh (by decide) (by decide)
  obtain ⟨outs, hout, rfl⟩ := (runs none ⟨0⟩ ⟨0⟩ _
    [("x", .scalar (4 : Int64)), ("c", .scalar true)] [] draws (by decide)).forth _ run
  exact ⟨valid, defined, fresh, by decide, by decide, draws, valid', hout⟩

/-- A graph with an input that has no name, and a node that omits a bound. -/
def clipsUnnamed : Graph where
  inputs := [{ name := "x" }, { name := "" }]
  nodes := [{ opType := "Clip", inputs := ["x", ""], outputs := ["y"] }]
  outputs := [{ name := "y" }]

/-- A graph that copies its input. -/
def copiesInput : Graph where
  inputs := [{ name := "x" }]
  nodes := [.copying "x" "y"]
  outputs := [{ name := "y" }]

/-- A graph whose nested graph declares the value that it takes from outside. -/
def declaresKept : Graph where
  inputs := [{ name := "kept" }, { name := "c" }]
  nodes := [whenTrue { doublesKept with valueInfo := [{ name := "kept" }] } "y" "z"]
  outputs := [{ name := "y" }]

/-- Values without names stand for omitted ones: when one gets a name, it is read where it was
omitted, and when a value gets the empty name, it is no longer defined.  A nested graph that declares
the value keeps the old name in its declaration. -/
theorem renameValue_of_unnamed_or_declared :
    (clipsUnnamed.validate [] = .ok () ∧ "" ∈ clipsUnnamed.definedNames ∧
      "low" ∉ clipsUnnamed.mentions ∧
      clipsUnnamed.run none ⟨0⟩ [("x", .scalar (2 : Int64)), ("", .scalar (5 : Int64))] =
        .ok [.scalar (2 : Int64)] ∧
      (clipsUnnamed.renameValue "" "low").run none ⟨0⟩
        [("x", .scalar (2 : Int64)), ("low", .scalar (5 : Int64))] =
          .ok [.scalar (5 : Int64)]) ∧
    (copiesInput.validate [] = .ok () ∧ "y" ∈ copiesInput.definedNames ∧
      "" ∉ copiesInput.mentions ∧
      (copiesInput.renameValue "y" "").validate [] = .error (.undefinedOutput "")) ∧
    (declaresKept.validate [] = .ok () ∧ "kept" ∈ declaresKept.definedNames ∧
      "x" ∉ declaresKept.mentions ∧
      "kept" ∈ (declaresKept.renameValue "kept" "x").mentions) := by
  have clip : clipsUnnamed.mentions = ["x", "", "y", "x", "", "y"] := by cbv
  have copy : copiesInput.mentions = ["x", "y", "x", "y"] := by cbv
  have declared : declaresKept.mentions = ["kept", "c", "y", "c", "y", "t", "kept", "kept", "kept",
    "t", "z", "z"] := by cbv
  have declared' : (declaresKept.renameValue "kept" "x").mentions = ["x", "c", "y", "c", "y", "t",
    "kept", "x", "x", "t", "z", "z"] := by cbv
  have named : clipsUnnamed.renameValue "" "low" =
      { inputs := [{ name := "x" }, { name := "low" }]
        nodes := [{ opType := "Clip", inputs := ["x", "low"], outputs := ["y"] }]
        outputs := [{ name := "y" }] } := by cbv
  rw [clip, copy, declared, declared', named]
  refine ⟨⟨by cbv, by decide, by decide, ?_, ?_⟩, ⟨by cbv, by decide, by decide, by cbv⟩, by cbv,
    by decide, by decide, by decide⟩
  · exact runIn_of_next? [0] (by decide +kernel) rfl rfl (by cbv)
  · exact runIn_of_next? [0] (by decide +kernel) rfl rfl (by cbv)

end Graph
end TensorGraph
