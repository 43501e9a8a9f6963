import TensorGraph.Proofs.Graph.Names

/-!
# What validity says

Input:

* a graph in a scope of outer names.

The check of a graph passes names from graph to graph.  It succeeds exactly when three properties
hold that do not speak of the order of checking:

* no name is defined twice, at any depth (`Graph.allDefinitions`);
* the graph captures only outer names;
* the control-flow nodes at every depth hold the nested graphs that they need.

Main results:

* `Graph.adds_validateIn`, for a check that goes on from other graphs;
* `Graph.validate_eq_ok_iff`.
-/

namespace TensorGraph

namespace Graph

/-- Whether the control-flow nodes of a graph hold the nested graphs that they need. -/
def Controlled (g : Graph) : Prop := ∀ n ∈ g.nodes, n.checkControlFlow = .ok ()

/-! ## Checks that add names -/

/-- A check that adds the given names to those that are defined, when none of them is defined
already and a condition holds. -/
def Adds (names : List String) (condition : Prop)
    (check : List String → Except Malformation (List String)) : Prop :=
  ∀ defined after,
    check defined = .ok after ↔
      (names.Nodup ∧ ∀ x ∈ names, x ∉ defined) ∧ condition ∧ after = names.reverse ++ defined

namespace Adds

variable {names names' : List String} {condition condition' : Prop}
  {check check' : List String → Except Malformation (List String)}

theorem congr (h : Adds names condition check) (same : condition ↔ condition') :
    Adds names condition' check := by
  intro defined after
  rw [h defined after, same]

/-- The check that adds no name. -/
theorem nil : Adds [] True fun defined => .ok defined := by
  intro defined after
  simp [eq_comm]

/-- Two checks in a row. -/
theorem append (h : Adds names condition check) (h' : Adds names' condition' check') :
    Adds (names ++ names') (condition ∧ condition') fun defined => check defined >>= check' := by
  intro defined after
  show check defined >>= check' = .ok after ↔ _
  constructor
  · intro done
    cases hc : check defined with
    | error e => rw [hc] at done; cases done
    | ok middle =>
        rw [hc] at done
        obtain ⟨⟨nodup, fresh⟩, hold, rfl⟩ := (h defined middle).1 hc
        obtain ⟨⟨nodup', fresh'⟩, hold', rfl⟩ := (h' _ after).1 done
        refine ⟨⟨List.nodup_append.2 ⟨nodup, nodup', ?_⟩, ?_⟩, ⟨hold, hold'⟩, by simp⟩
        · rintro x hx y hy rfl
          exact fresh' x hy (List.mem_append_left _ (List.mem_reverse.2 hx))
        · intro x hx
          rcases List.mem_append.1 hx with hx | hx
          · exact fresh x hx
          · intro hd
            exact fresh' x hx (List.mem_append_right _ hd)
  · rintro ⟨⟨nodup, fresh⟩, ⟨hold, hold'⟩, rfl⟩
    obtain ⟨nodup₁, nodup₂, apart⟩ := List.nodup_append.1 nodup
    have first : check defined = .ok (names.reverse ++ defined) :=
      (h _ _).2 ⟨⟨nodup₁, fun x hx => fresh x (List.mem_append_left _ hx)⟩, hold, rfl⟩
    have second : check' (names.reverse ++ defined) =
        .ok (names'.reverse ++ (names.reverse ++ defined)) := by
      refine (h' _ _).2 ⟨⟨nodup₂, ?_⟩, hold', rfl⟩
      intro x hx hd
      rcases List.mem_append.1 hd with hd | hd
      · exact apart x (List.mem_reverse.1 hd) x hx rfl
      · exact fresh x (List.mem_append_right _ hx) hd
    rw [first, List.reverse_append, List.append_assoc]
    exact second

/-- A check that may fail before it adds names. -/
theorem guarded (guard : Except Malformation Unit) (h : Adds names condition check) :
    Adds names (guard = .ok () ∧ condition) fun defined => guard >>= fun _ => check defined := by
  intro defined after
  cases guard with
  | error e =>
      constructor
      · intro done
        cases done
      · rintro ⟨-, ⟨no, -⟩, -⟩
        cases no
  | ok u =>
      have : (Except.ok u : Except Malformation Unit) = .ok () := rfl
      simp only [this, true_and]
      exact h defined after

/-- A check for each element of a list, in order. -/
theorem foldlM {α : Type} {l : List α} (names : α → List String) {condition : α → Prop}
    (check : List String → α → Except Malformation (List String))
    (h : ∀ a ∈ l, Adds (names a) (condition a) fun defined => check defined a) :
    Adds (l.flatMap names) (∀ a ∈ l, condition a) fun defined => l.foldlM check defined := by
  induction l with
  | nil =>
      exact nil.congr (by simp)
  | cons a rest ih =>
      have first := h a List.mem_cons_self
      have others := ih fun b hb => h b (List.mem_cons_of_mem _ hb)
      simpa [List.foldlM_cons] using (first.append others).congr (by simp)

end Adds

theorem adds_define (names : List String) :
    Adds names True fun defined => define defined names := by
  induction names with
  | nil => exact Adds.nil
  | cons name rest ih =>
      intro defined after
      by_cases hd : name ∈ defined
      · simp [define, hd]
      · simp only [define, List.contains_eq_mem, hd, decide_false, Bool.false_eq_true, if_false]
        rw [ih (name :: defined) after]
        simp only [List.nodup_cons, List.mem_cons, not_or, List.reverse_cons, List.append_assoc,
          List.cons_append, List.nil_append]
        constructor
        · rintro ⟨⟨nodup, fresh⟩, -, rfl⟩
          refine ⟨⟨⟨fun h => (fresh name h).1 rfl, nodup⟩, ?_⟩, trivial, rfl⟩
          rintro x (rfl | hx)
          · exact hd
          · exact (fresh x hx).2
        · rintro ⟨⟨⟨hn, nodup⟩, fresh⟩, -, rfl⟩
          refine ⟨⟨nodup, fun x hx => ⟨?_, fresh x (Or.inr hx)⟩⟩, trivial, rfl⟩
          rintro rfl
          exact hn hx

/-! ## The whole check -/

/-- What a graph reads is visible at every depth exactly when the graph captures outer names only. -/
theorem captures_subset_iff {g : Graph} {outer : List String} :
    (∀ x ∈ g.captures, x ∈ outer) ↔
      (∀ n ∈ g.nodes, (∀ x ∈ n.presentInputs, x ∈ g.definitions ++ outer) ∧
        ∀ p ∈ n.subgraphs, ∀ x ∈ p.2.captures, x ∈ g.definitions ++ outer) ∧
      ∀ o ∈ g.outputs, o.name ∈ g.definitions ++ outer := by
  have visible : ∀ x, x ∈ g.definitions ++ outer ↔ x ∈ g.definedNames ∨ x ∈ outer := fun x => by
    rw [List.mem_append, mem_definitions]
  simp only [visible]
  constructor
  · intro h
    have read : ∀ n ∈ g.nodes, ∀ x ∈ n.reads, x ∈ g.definedNames ∨ x ∈ outer :=
      fun n hn x hx => (reads_subset hn hx).imp_right (h x)
    refine ⟨fun n hn => ⟨fun x hx => read n hn x (Node.mem_reads.2 (Or.inl hx)),
      fun p hp x hx => read n hn x (Node.mem_reads.2 (Or.inr ⟨p, hp, hx⟩))⟩, fun o ho => ?_⟩
    by_cases hd : o.name ∈ g.definedNames
    · exact Or.inl hd
    · exact Or.inr (h _ (mem_captures.2 ⟨Or.inr (List.mem_map.2 ⟨o, ho, rfl⟩), hd⟩))
  · rintro ⟨nodes, outputs⟩ x hx
    obtain ⟨hr | ho, hd⟩ := mem_captures.1 hx
    · obtain ⟨n, hn, hr⟩ := hr
      rcases Node.mem_reads.1 hr with hr | ⟨p, hp, hr⟩
      · exact ((nodes n hn).1 x hr).resolve_left hd
      · exact ((nodes n hn).2 p hp x hr).resolve_left hd
    · obtain ⟨o, hmem, rfl⟩ := List.mem_map.1 ho
      exact (outputs o hmem).resolve_left hd

theorem everywhere_controlled_iff {g : Graph} :
    g.Everywhere Controlled ↔
      ∀ n ∈ g.nodes, n.checkControlFlow = .ok () ∧
        ∀ p ∈ n.subgraphs, p.2.Everywhere Controlled := by
  constructor
  · intro h n hn
    exact ⟨h.here n hn, fun p hp => h.inside hn hp⟩
  · intro h
    exact .intro (fun n hn => (h n hn).1) fun n hn p hp => (h n hn).2 p hp

end Graph

/-- The check of a node itself, without its nested graphs. -/
def Node.checkIn (visible : List String) (n : Node) : Except Malformation Unit :=
  match n.presentInputs.find? fun name => !visible.contains name with
  | some name => .error (.undefinedInput n.displayName name)
  | none => n.checkControlFlow

theorem Node.checkIn_eq_ok_iff {n : Node} {visible : List String} :
    n.checkIn visible = .ok () ↔
      (∀ x ∈ n.presentInputs, x ∈ visible) ∧ n.checkControlFlow = .ok () := by
  unfold checkIn
  cases h : n.presentInputs.find? fun name => !visible.contains name with
  | some name =>
      have hidden := List.find?_some h
      have hmem := List.mem_of_find?_eq_some h
      simp only [List.contains_eq_mem, Bool.not_eq_true', decide_eq_false_iff_not] at hidden
      constructor
      · intro done
        cases done
      · rintro ⟨read, -⟩
        exact absurd (read name hmem) hidden
  | none =>
      simp only [List.find?_eq_none, List.contains_eq_mem, Bool.not_eq_true', decide_eq_false_iff_not,
        Classical.not_not] at h
      exact ⟨fun done => ⟨h, done⟩, fun done => done.2⟩

namespace Graph

/-- The check of the outputs. -/
def checkOutputs (visible : List String) (g : Graph) : Except Malformation Unit :=
  match g.outputs.find? fun o => !visible.contains o.name with
  | some o => .error (.undefinedOutput o.name)
  | none => .ok ()

theorem checkOutputs_eq_ok_iff {g : Graph} {visible : List String} :
    g.checkOutputs visible = .ok () ↔ ∀ o ∈ g.outputs, o.name ∈ visible := by
  unfold checkOutputs
  cases h : g.outputs.find? fun o => !visible.contains o.name with
  | some o =>
      have hidden := List.find?_some h
      have hmem := List.mem_of_find?_eq_some h
      simp only [List.contains_eq_mem, Bool.not_eq_true', decide_eq_false_iff_not] at hidden
      constructor
      · intro done
        cases done
      · intro defined
        exact absurd (defined o hmem) hidden
  | none =>
      simp only [List.find?_eq_none, List.contains_eq_mem, Bool.not_eq_true', decide_eq_false_iff_not,
        Classical.not_not] at h
      exact ⟨fun _ => h, fun _ => rfl⟩

/-- The check of a graph as checks of its parts in a row. -/
theorem validateIn_eq (g : Graph) (outer defined : List String) :
    g.validateIn outer defined =
      define defined g.definitions >>= fun defined =>
        (g.nodes.foldlM (fun defined n =>
          n.checkIn (g.definitions ++ outer) >>= fun _ =>
            n.subgraphs.foldlM (fun defined p => p.2.validateIn (g.definitions ++ outer) defined)
              defined) defined) >>= fun defined =>
          g.checkOutputs (g.definitions ++ outer) >>= fun _ => .ok defined := by
  rw [validateIn]
  congr 1
  funext defined
  simp only [List.foldlM_subtype, List.unattach_attach, Node.checkIn, checkOutputs]
  congr 1
  · congr 1
    funext defined n
    cases n.presentInputs.find? fun name => !(g.definitions ++ outer).contains name <;> rfl
  · funext defined
    cases g.outputs.find? fun o => !(g.definitions ++ outer).contains o.name <;> rfl

/-- The check of a graph among others adds the definitions of all depths. -/
theorem adds_validateIn (g : Graph) (outer : List String) :
    Adds g.allDefinitions ((∀ x ∈ g.captures, x ∈ outer) ∧ g.Everywhere Controlled)
      (g.validateIn outer) := by
  induction g using nested_induction generalizing outer with
  | step g ih =>
      have nodes :=
        Adds.foldlM (l := g.nodes) Node.innerNames _ fun n hn =>
          Adds.guarded (n.checkIn (g.definitions ++ outer)) <|
            Adds.foldlM (l := n.subgraphs) (fun p => p.2.allDefinitions)
              (fun defined p => p.2.validateIn (g.definitions ++ outer) defined)
              fun p hp => ih n hn p hp (g.definitions ++ outer)
      have outputs := Adds.guarded (g.checkOutputs (g.definitions ++ outer)) Adds.nil
      have all := (adds_define g.definitions).append (nodes.append outputs)
      rw [List.append_nil, ← innerNames, ← allDefinitions_eq] at all
      have same : g.validateIn outer = _ := funext fun defined => validateIn_eq g outer defined
      rw [same]
      refine all.congr ?_
      rw [captures_subset_iff, everywhere_controlled_iff, checkOutputs_eq_ok_iff]
      simp only [Node.checkIn_eq_ok_iff]
      constructor
      · rintro ⟨-, nodes, outputs, -⟩
        exact ⟨⟨fun n hn => ⟨(nodes n hn).1.1, fun p hp => ((nodes n hn).2 p hp).1⟩, outputs⟩,
          fun n hn => ⟨(nodes n hn).1.2, fun p hp => ((nodes n hn).2 p hp).2⟩⟩
      · rintro ⟨⟨reads, outputs⟩, control⟩
        exact ⟨trivial, fun n hn => ⟨⟨(reads n hn).1, (control n hn).1⟩,
          fun p hp => ⟨(reads n hn).2 p hp, (control n hn).2 p hp⟩⟩, outputs, trivial⟩

/-- A graph is valid in a scope when no name is defined twice, only outer names are captured, and
all control-flow nodes hold what they need. -/
theorem validate_eq_ok_iff {g : Graph} {outer : List String} :
    g.validate outer = .ok () ↔
      g.allDefinitions.Nodup ∧ (∀ x ∈ g.captures, x ∈ outer) ∧ g.Everywhere Controlled := by
  have adds := adds_validateIn g outer []
  unfold validate
  cases h : g.validateIn outer [] with
  | error e =>
      constructor
      · intro done
        cases done
      · rintro ⟨nodup, hold⟩
        have := (adds _).2 ⟨⟨nodup, by simp⟩, hold, rfl⟩
        rw [h] at this
        cases this
  | ok after =>
      obtain ⟨⟨nodup, -⟩, hold, -⟩ := (adds after).1 h
      exact ⟨fun _ => ⟨nodup, hold⟩, fun _ => rfl⟩

end Graph
end TensorGraph
