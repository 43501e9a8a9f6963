import TensorGraph.Proofs.Message.RoundTrip
import TensorGraph.Proofs.Simplification.Fixpoint
import TensorGraph.Proofs.Storage.Reread
import TensorGraph.Simplification.Basic

/-!
# Simplified models are valid

Input:

* a valid graph that is regular at every depth (`Graph.Ready`), and options;
* or a stored model that can be loaded, whose graphs are orderly at every depth (`Graph.Orderly`).

Algorithm:

* the graph is prepared, which changes shapes of inputs and removes outputs;
* it is simplified without the default values of its inputs, which are put back afterwards;
* inputs and initializers are made to agree, and the result is sorted and checked.

Main results:

* `Graph.Ready.prepare`: the prepared graph is ready too, and no cycle is found;
* `Model.simplifyGraph_succeeds`: a ready graph is simplified without an error, and the result is
  ready;
* `Model.ensures_load`: what is loaded is valid and can be stored;
* `Model.exists_load_serialize`: a valid model that can be stored is loaded again.
-/

namespace TensorGraph

namespace Graph

/-- Whether a graph is valid, and regular at every depth. -/
structure Ready (g : Graph) : Prop where
  valid : g.validate [] = .ok ()
  regular : g.Everywhere Regular

theorem ready_iff {g : Graph} :
    g.Ready ↔ g.allDefinitions.Nodup ∧ (∀ x, x ∉ g.captures) ∧ g.Everywhere Regular := by
  constructor
  · rintro ⟨valid, regular⟩
    obtain ⟨nodup, closed, -⟩ := validate_eq_ok_iff.1 valid
    exact ⟨nodup, fun x hx => List.not_mem_nil (closed x hx), regular⟩
  · rintro ⟨nodup, closed, regular⟩
    refine ⟨validate_eq_ok_iff.2 ⟨nodup, fun x hx => absurd hx (closed x), ?_⟩, regular⟩
    exact regular.mono fun h hr n hn => (hr.nodes n hn).control

namespace Ready

variable {g g' : Graph}

theorem nodup (h : g.Ready) : g.allDefinitions.Nodup := (ready_iff.1 h).1

theorem closed (h : g.Ready) (x : String) : x ∉ g.captures := (ready_iff.1 h).2.1 x

theorem sound (h : g.Ready) : g.Sound :=
  ⟨.of_nodup h.nodup fun x hx => absurd hx (h.closed x), h.regular⟩

/-- What stands for a valid graph is valid. -/
theorem refine (h : g.Ready) (refines : g.Refines g') (sound : g'.Sound) : g'.Ready :=
  ready_iff.2 ⟨refines.nodup_allDefinitions sound.separate h.nodup,
    fun x hx => h.closed x (refines.captures x hx), sound.regular⟩

theorem simplifies (h : g.Ready) (smaller : g.Simplifies g') : g'.Ready :=
  h.refine smaller.reduces.refines smaller.sound

end Ready

end Graph

/-- Whether a computation gives a value with a property, or fails for another reason than that a
graph cannot be loaded. -/
def Harmless {α : Type} (r : Except SimplifyError α) (Q : α → Prop) : Prop :=
  Ensures r Q ∧ ∀ e, r = .error e → ∀ l, e ≠ .load l

namespace Harmless

variable {α β : Type} {Q : α → Prop} {R : β → Prop}

theorem ok {x : α} (h : Q x) : Harmless (.ok x) Q := ⟨.ok h, by rintro e ⟨⟩⟩

theorem error {e : SimplifyError} (h : ∀ l, e ≠ .load l) : Harmless (.error e) Q :=
  ⟨.error, by rintro e ⟨⟩; exact h⟩

theorem mapError {ε : Type} {r : Except ε α} {f : ε → SimplifyError} (h : Ensures r Q)
    (other : ∀ e l, f e ≠ .load l) : Harmless (r.mapError f) Q := by
  cases r with
  | error e => exact error (other e)
  | ok x => exact ok (h x rfl)

theorem bind {r : Except SimplifyError α} {f : α → Except SimplifyError β} (h : Harmless r Q)
    (next : ∀ x, Q x → Harmless (f x) R) : Harmless (r >>= f) R := by
  cases r with
  | error e => exact error (h.2 e rfl)
  | ok x => exact next x (h.1 x rfl)

end Harmless

/-! ## Prepared graphs -/

namespace Graph

section

variable {g g' : Graph}

/-- Only declared shapes of inputs are replaced. -/
theorem setInputShape_spec {name : String} {shape : List Dim} {vs vs' : List ValueInfo}
    (h : setInputShape name shape vs = some vs') :
    vs'.map ValueInfo.name = vs.map ValueInfo.name ∧
      ((∀ v ∈ vs, v.Storable) → ∀ v ∈ vs', v.Storable) := by
  induction vs generalizing vs' with
  | nil => cases h
  | cons v rest ih =>
      unfold setInputShape at h
      split at h
      · cases h
        refine ⟨rfl, fun storable u hu => ?_⟩
        rcases List.mem_cons.1 hu with rfl | hu
        · exact storable v List.mem_cons_self
        · exact storable u (List.mem_cons_of_mem _ hu)
      · obtain ⟨rest', hrest, rfl⟩ := Option.map_eq_some_iff.1 h
        obtain ⟨names, keeps⟩ := ih hrest
        refine ⟨by rw [List.map_cons, List.map_cons, names], fun storable u hu => ?_⟩
        rcases List.mem_cons.1 hu with rfl | hu
        · exact storable u List.mem_cons_self
        · exact keeps (fun w hw => storable w (List.mem_cons_of_mem _ hw)) u hu

/-- Which inputs need a value from outside depends on names only. -/
theorem names_runtimeInputs (g : Graph) :
    g.runtimeInputs.map ValueInfo.name = g.inputNames.filter (· ∉ g.initializerNames) := by
  rw [runtimeInputs_eq_filter, inputNames, List.filter_map]
  rfl

/-- Inputs may be declared in another way. -/
theorem Ready.withInputs (h : g.Ready) {vs : List ValueInfo}
    (names : vs.map ValueInfo.name = g.inputNames) (storable : ∀ v ∈ vs, v.Storable) :
    ({ g with inputs := vs } : Graph).Ready := by
  obtain ⟨nodup, closed, regular⟩ := ready_iff.1 h
  obtain ⟨nodes, acyclic, hg⟩ := everywhere_regular_iff.1 regular
  have runtime : ({ g with inputs := vs } : Graph).runtimeInputs.map ValueInfo.name =
      g.runtimeInputs.map ValueInfo.name := by
    rw [names_runtimeInputs, names_runtimeInputs]
    exact congrArg (List.filter _) names
  refine ready_iff.2 ⟨?_, fun x hx => closed x ?_, everywhere_regular_iff.2
    ⟨nodes, acyclic, hg.unknown, hg.initializers, storable, hg.outputs, hg.valueInfo⟩⟩
  · rw [List.nodup_iff_count] at nodup ⊢
    intro x
    have := nodup x
    rw [count_allDefinitions] at this ⊢
    rwa [runtime]
  · rw [mem_captures, mem_definedNames] at hx ⊢
    rwa [show vs.map ValueInfo.name = g.inputs.map ValueInfo.name from names] at hx

theorem Ready.overwriteInputShapes (h : g.Ready) (shapes : List (String × List Dim)) :
    Ensures (g.overwriteInputShapes shapes) Ready := by
  refine Ensures.foldlM h fun g' p _ hg' => ?_
  dsimp only
  split
  · rename_i vs hvs
    obtain ⟨names, storable⟩ := setInputShape_spec hvs
    exact .ok (hg'.withInputs names (storable hg'.sound.storable.inputs))
  · exact .error

theorem Ready.removeOutputs (h : g.Ready) (names : List String) :
    Ensures (g.removeOutputs names) Ready := by
  unfold Graph.removeOutputs
  split
  · exact .error
  · refine .ok ?_
    obtain ⟨nodup, closed, regular⟩ := ready_iff.1 h
    obtain ⟨nodes, acyclic, hg⟩ := everywhere_regular_iff.1 regular
    have same : ({ g with
        outputs := g.outputs.filter fun o => !names.contains o.name } : Graph).allDefinitions =
          g.allDefinitions := by
      rw [allDefinitions_eq, allDefinitions_eq]
      rfl
    refine ready_iff.2 ⟨same ▸ nodup, fun x hx => closed x ?_, everywhere_regular_iff.2
      ⟨nodes, acyclic, hg.unknown, hg.initializers, hg.inputs, fun v hv => ?_, hg.valueInfo⟩⟩
    · obtain ⟨hread, hundef⟩ := mem_captures.1 hx
      refine mem_captures.2 ⟨hread.imp_right fun ho => ?_, hundef⟩
      exact (List.filter_sublist.map _).subset ho
    · exact hg.outputs v (List.mem_filter.1 hv).1

/-- A ready graph is prepared, or an option asks for what it does not have. -/
theorem Ready.prepare (h : g.Ready) (version : Option Int64) (o : Options) :
    Harmless (g.prepare version o) Ready := by
  unfold Graph.prepare
  refine Harmless.bind (.mapError (h.overwriteInputShapes o.inputShapes) fun _ _ => by simp) ?_
  intro shaped hshaped
  split
  · exact .error fun l => by simp
  · split
    · exact .ok hshaped
    · refine Harmless.bind (.mapError (hshaped.removeOutputs o.unusedOutputs) fun _ _ => by simp) ?_
      intro reduced hreduced
      obtain ⟨sorted, hsorted, simplifies⟩ := hreduced.sound.sortTopologically
      rw [hsorted]
      exact .ok ((hreduced.simplifies simplifies).simplifies
        (eliminateDeadCode_simplifies simplifies.sound simplifies.sorted version))

end

/-! ## Default values of inputs -/

section

variable {g g' : Graph}

theorem captures_withoutDefaults {overridable : Bool} {x : String}
    (hx : x ∈ (g.withoutDefaults overridable).captures) : x ∈ g.captures := by
  cases overridable with
  | false => exact hx
  | true =>
      obtain ⟨hread, hundef⟩ := mem_captures.1 hx
      refine mem_captures.2 ⟨hread, fun hdef => hundef ?_⟩
      rcases mem_definedNames.1 hdef with h | h | h
      · exact mem_definedNames.2 (Or.inl h)
      · by_cases hin : x ∈ g.inputNames
        · exact mem_definedNames.2 (Or.inl hin)
        · obtain ⟨i, hi, rfl⟩ := List.mem_map.1 h
          refine mem_definedNames.2 (Or.inr (Or.inl (List.mem_map.2 ⟨i, ?_, rfl⟩)))
          refine List.mem_filter.2 ⟨hi, ?_⟩
          rw [Bool.not_eq_true', Bool.eq_false_iff, ne_eq, isInput_iff]
          exact hin
      · exact mem_definedNames.2 (Or.inr (Or.inr h))

theorem withoutDefaults_sound (sound : g.Sound) (overridable : Bool) :
    (g.withoutDefaults overridable).Sound := by
  cases overridable with
  | false => exact sound
  | true =>
      have hsub : ((g.initializers.filter fun i => !g.isInput i.name).map
          Initializer.name).Sublist g.initializerNames := List.filter_sublist.map _
      refine sound_iff.2 ⟨⟨?_, sound.separate.inputs, fun x hx => ?_⟩,
        fun n hn => sound.deepRegular hn, sound.acyclic, sound.storable.unknown,
        fun i hi => sound.storable.initializers i (List.mem_filter.1 hi).1, sound.storable.inputs,
        sound.storable.outputs, sound.storable.valueInfo⟩
      · rw [List.nodup_iff_count]
        intro x
        have once := sound.separate.count_made_le x
        have fewer := hsub.count_le x
        rw [count_made] at once
        rw [count_made]
        exact Nat.le_trans (Nat.add_le_add_right (Nat.add_le_add_right fewer _) _) once
      · exact sound.separate.captures x (captures_withoutDefaults hx)

theorem mem_names_defaultValues {overridable : Bool} {x : String} :
    x ∈ (g.defaultValues overridable).map Initializer.name ↔
      overridable = true ∧ x ∈ g.initializerNames ∧ x ∈ g.inputNames := by
  cases overridable with
  | false => simp [defaultValues]
  | true =>
      simp only [defaultValues, if_true, true_and, List.mem_map, List.mem_filter, isInput_iff,
        initializerNames]
      constructor
      · rintro ⟨i, ⟨hi, hin⟩, rfl⟩
        exact ⟨⟨i, hi, rfl⟩, hin⟩
      · rintro ⟨⟨i, hi, rfl⟩, hin⟩
        exact ⟨i, ⟨hi, hin⟩, rfl⟩

/-- An input has an initializer, without the default values, if they are constants. -/
theorem mem_initializerNames_withoutDefaults {overridable : Bool} {x : String}
    (hx : x ∈ g.inputNames) :
    x ∈ (g.withoutDefaults overridable).initializerNames ↔
      overridable = false ∧ x ∈ g.initializerNames := by
  cases overridable with
  | false => simp [withoutDefaults]
  | true =>
      refine iff_of_false (fun h => ?_) (by simp)
      obtain ⟨i, hi, rfl⟩ := List.mem_map.1 h
      have := (List.mem_filter.1 hi).2
      rw [Bool.not_eq_true', Bool.eq_false_iff, ne_eq, isInput_iff] at this
      exact this hx

/-- With the default values put back, the same inputs have initializers as before. -/
theorem mem_names_restoreDefaults {overridable : Bool} {is : List Initializer} {x : String}
    (hx : x ∈ g.inputNames)
    (kept : x ∈ is.map Initializer.name ↔ x ∈ (g.withoutDefaults overridable).initializerNames) :
    x ∈ (is ++ g.defaultValues overridable).map Initializer.name ↔ x ∈ g.initializerNames := by
  rw [List.map_append, List.mem_append, kept, mem_initializerNames_withoutDefaults hx,
    mem_names_defaultValues]
  cases overridable <;> simp [hx]

/-- The default values can be put back. -/
theorem restoreDefaults_sound (sound : g.Sound) {overridable : Bool} (sound' : g'.Sound)
    (refines : (g.withoutDefaults overridable).Refines g') :
    ({ g' with initializers := g'.initializers ++ g.defaultValues overridable } : Graph).Sound ∧
      g.Refines { g' with initializers := g'.initializers ++ g.defaultValues overridable } := by
  cases overridable with
  | false =>
      have same : ({ g' with initializers := g'.initializers ++ g.defaultValues false } : Graph) =
          g' := by
        cases g'
        exact congrArg (fun is => Graph.mk _ _ _ is _ _ _ _) (List.append_nil _)
      rw [same]
      exact ⟨sound', refines⟩
  | true =>
      have kept : ∀ x ∈ g.inputNames, x ∉ g'.initializerNames := fun x hx hkept => by
        simpa using (mem_initializerNames_withoutDefaults hx).1 ((refines.defaults x hx).1 hkept)
      have captures : ∀ x ∈ ({ g' with
          initializers := g'.initializers ++ g.defaultValues true } : Graph).captures,
          x ∈ g'.captures := by
        intro x hx
        obtain ⟨hread, hundef⟩ := mem_captures.1 hx
        refine mem_captures.2 ⟨hread, fun hdef => hundef ?_⟩
        rcases mem_definedNames.1 hdef with h | h | h
        · exact mem_definedNames.2 (Or.inl h)
        · refine mem_definedNames.2 (Or.inr (Or.inl ?_))
          rw [List.map_append]
          exact List.mem_append_left _ h
        · exact mem_definedNames.2 (Or.inr (Or.inr h))
      refine ⟨sound_iff.2 ⟨⟨?_, sound'.separate.inputs, fun x hx =>
        sound'.separate.captures x (captures x hx)⟩, fun n hn => sound'.deepRegular hn,
        sound'.acyclic, sound'.storable.unknown, fun i hi => ?_, sound'.storable.inputs,
        sound'.storable.outputs, sound'.storable.valueInfo⟩, refines.inputs, refines.outputs,
        fun x hx => mem_names_restoreDefaults hx (refines.defaults x hx),
        fun x hx => captures_withoutDefaults (refines.captures x (captures x hx))⟩
      · rw [List.nodup_iff_count]
        intro x
        have once := sound'.separate.count_made_le x
        have before := sound.separate.count_made_le x
        have fewer : ((g.defaultValues true).map Initializer.name).count x ≤
            g.initializerNames.count x := (List.filter_sublist.map _).count_le x
        rw [count_made] at once before
        rw [count_made]
        change (List.map _ (_ ++ _)).count x + g'.produced.count x + g'.innerNames.count x ≤ 1
        rw [List.map_append, List.count_append]
        change g'.initializerNames.count x + _ + _ + _ ≤ 1
        by_cases hx : x ∈ (g.defaultValues true).map Initializer.name
        · -- the default value of an input is not made in any other way
          have hin := (mem_names_defaultValues.1 hx).2.2
          have apart := sound'.separate.inputs x (refines.inputNames ▸ hin)
          rw [List.mem_append, not_or] at apart
          rw [List.count_eq_zero.2 (kept x hin), List.count_eq_zero.2 apart.1,
            List.count_eq_zero.2 apart.2]
          omega
        · rw [List.count_eq_zero.2 hx]
          omega
      · rcases List.mem_append.1 hi with hi | hi
        · exact sound'.storable.initializers i hi
        · exact sound.storable.initializers i (List.mem_filter.1 hi).1

/-- Other inputs and fewer initializers, which still define whatever is used. -/
theorem Ready.withInterface (h : g.Ready) {vs : List ValueInfo} {is : List Initializer}
    (initializers : is.Sublist g.initializers)
    (inputs : (vs.filter fun v => v.name ∉ is.map Initializer.name).Sublist g.runtimeInputs)
    (defines : ∀ x ∈ g.uses, x ∈ g.inputNames ∨ x ∈ g.initializerNames →
      x ∈ vs.map ValueInfo.name ∨ x ∈ is.map Initializer.name)
    (storable : ∀ v ∈ vs, v.Storable) :
    ({ g with inputs := vs, initializers := is } : Graph).Ready := by
  obtain ⟨nodup, closed, regular⟩ := ready_iff.1 h
  obtain ⟨nodes, acyclic, hg⟩ := everywhere_regular_iff.1 regular
  refine ready_iff.2 ⟨?_, fun x hx => closed x ?_, everywhere_regular_iff.2
    ⟨nodes, acyclic, hg.unknown, fun i hi => hg.initializers i (initializers.subset hi), storable,
      hg.outputs, hg.valueInfo⟩⟩
  · rw [List.nodup_iff_count] at nodup ⊢
    intro x
    refine Nat.le_trans ?_ (nodup x)
    rw [count_allDefinitions, count_allDefinitions, count_made, count_made, runtimeInputs_eq_filter]
    refine Nat.add_le_add (Nat.add_le_add_right (Nat.add_le_add_right ?_ _) _)
      ((inputs.map _).count_le x)
    exact (initializers.map _).count_le x
  · obtain ⟨hread, hundef⟩ := mem_captures.1 hx
    refine mem_captures.2 ⟨hread, fun hdef => hundef ?_⟩
    have hused := defines x (mem_uses.2 hread)
    rcases mem_definedNames.1 hdef with h | h | h
    · exact mem_definedNames.2 ((hused (Or.inl h)).imp_right Or.inl)
    · exact mem_definedNames.2 ((hused (Or.inr h)).imp_right Or.inl)
    · exact mem_definedNames.2 (Or.inr (Or.inr h))

/-! ### Inputs and initializers that agree -/

theorem initializers_syncInputs (separate : Bool) :
    (g.syncInputs separate).initializers =
      g.initializers.filter fun i => g.uses.contains i.name := by
  cases separate <;> rfl

/-- Initializers are kept when something reads them. -/
theorem mem_initializers_syncInputs {separate : Bool} {i : Initializer} :
    i ∈ (g.syncInputs separate).initializers ↔ i ∈ g.initializers ∧ i.name ∈ g.uses := by
  rw [initializers_syncInputs, List.mem_filter, List.contains_iff_mem]

theorem mem_initializerNames_syncInputs {separate : Bool} {x : String} :
    x ∈ (g.syncInputs separate).initializerNames ↔ x ∈ g.initializerNames ∧ x ∈ g.uses := by
  simp only [initializerNames, List.mem_map, mem_initializers_syncInputs]
  constructor
  · rintro ⟨i, ⟨hi, hu⟩, rfl⟩
    exact ⟨⟨i, hi, rfl⟩, hu⟩
  · rintro ⟨⟨i, hi, rfl⟩, hu⟩
    exact ⟨i, ⟨hi, hu⟩, rfl⟩

/-- Inputs with an initializer are dropped where initializers are separate. -/
theorem inputs_syncInputs_true : (g.syncInputs true).inputs = g.runtimeInputs := by
  rw [runtimeInputs_eq_filter]
  refine List.filter_congr fun v _ => ?_
  rw [Bool.eq_iff_iff, Bool.not_eq_true', List.contains_eq_mem, decide_eq_false_iff_not,
    decide_eq_true_iff]

/-- Elsewhere inputs are dropped with initializers that nothing reads, and the other initializers
become inputs. -/
theorem inputs_syncInputs_false :
    ∃ missing : Initializer → Bool, (g.syncInputs false).inputs =
      (g.inputs.filter fun v => v.name ∉ g.initializerNames ∨ v.name ∈ g.uses) ++
        ((g.syncInputs false).initializers.filter missing).map Initializer.valueInfo ∧
      ∀ i ∈ (g.syncInputs false).initializers, missing i = false →
        ∃ v ∈ (g.syncInputs false).inputs, v.name = i.name := by
  have kept : (g.inputs.filter fun v => !((g.initializers.filter fun i =>
      !g.uses.contains i.name).map Initializer.name).contains v.name) =
      g.inputs.filter fun v => v.name ∉ g.initializerNames ∨ v.name ∈ g.uses := by
    refine List.filter_congr fun v _ => ?_
    rw [Bool.eq_iff_iff, decide_eq_true_iff]
    simp only [Bool.not_eq_true', List.contains_eq_mem, decide_eq_false_iff_not, List.mem_map,
      List.mem_filter, initializerNames]
    constructor
    · intro h
      by_contra no
      rw [not_or, not_not] at no
      obtain ⟨⟨i, hi, heq⟩, hu⟩ := no
      exact h ⟨i, ⟨hi, heq ▸ hu⟩, heq⟩
    · rintro (h | h) ⟨i, ⟨hi, hu⟩, heq⟩
      · exact h ⟨i, hi, heq⟩
      · exact hu (heq ▸ h)
  have inputs : (g.syncInputs false).inputs = (g.inputs.filter fun v =>
      v.name ∉ g.initializerNames ∨ v.name ∈ g.uses) ++
        ((g.syncInputs false).initializers.filter fun i =>
          !(g.inputs.filter fun v => v.name ∉ g.initializerNames ∨ v.name ∈ g.uses).any
            fun v => v.name == i.name).map Initializer.valueInfo := by
    rw [← kept]
    rfl
  refine ⟨_, inputs, fun i _ present => ?_⟩
  simp only [Bool.not_eq_false', List.any_eq_true, beq_iff_eq] at present
  obtain ⟨v, hv, heq⟩ := present
  exact ⟨v, inputs ▸ List.mem_append_left _ hv, heq⟩

/-- The same inputs need a value from outside. -/
theorem runtimeInputs_syncInputs (separate : Bool) :
    (g.syncInputs separate).runtimeInputs = g.runtimeInputs := by
  have names := @mem_initializerNames_syncInputs g separate
  cases separate with
  | true =>
      rw [runtimeInputs_eq_filter, inputs_syncInputs_true, List.filter_eq_self]
      intro v hv
      rw [decide_eq_true_iff]
      exact fun h => (mem_runtimeInputs.1 hv).2 (names.1 h).1
  | false =>
      obtain ⟨missing, inputs, -⟩ := @inputs_syncInputs_false g
      have none : (((g.syncInputs false).initializers.filter missing).map
          Initializer.valueInfo).filter (fun v : ValueInfo =>
            v.name ∉ (g.syncInputs false).initializerNames) = [] := by
        refine List.filter_eq_nil_iff.2 fun v hv => ?_
        obtain ⟨i, hi, rfl⟩ := List.mem_map.1 hv
        rw [decide_eq_true_iff, not_not]
        exact List.mem_map_of_mem (List.mem_filter.1 hi).1
      rw [runtimeInputs_eq_filter, inputs, List.filter_append]
      change _ ++ List.filter (fun v : ValueInfo =>
        v.name ∉ (g.syncInputs false).initializerNames) _ = _
      rw [none, List.append_nil, List.filter_filter, runtimeInputs_eq_filter]
      refine List.filter_congr fun v _ => ?_
      rw [Bool.eq_iff_iff, Bool.and_eq_true, decide_eq_true_iff, decide_eq_true_iff,
        decide_eq_true_iff]
      change v.name ∉ (g.syncInputs false).initializerNames ∧ _ ↔ v.name ∉ g.initializerNames
      rw [names]
      tauto

/-- Each input was one before, or is an initializer. -/
theorem mem_inputs_syncInputs {separate : Bool} {v : ValueInfo}
    (hv : v ∈ (g.syncInputs separate).inputs) : v ∈ g.inputs ∨ ∃ i : Initializer, v = i.valueInfo := by
  cases separate with
  | true =>
      rw [inputs_syncInputs_true] at hv
      exact Or.inl (mem_runtimeInputs.1 hv).1
  | false =>
      obtain ⟨missing, inputs, -⟩ := @inputs_syncInputs_false g
      rw [inputs] at hv
      rcases List.mem_append.1 hv with hv | hv
      · exact Or.inl (List.mem_filter.1 hv).1
      · obtain ⟨i, -, rfl⟩ := List.mem_map.1 hv
        exact Or.inr ⟨i, rfl⟩

/-- An initializer is an input exactly where initializers are not separate. -/
theorem mem_inputNames_syncInputs {separate : Bool} {i : Initializer}
    (hi : i ∈ (g.syncInputs separate).initializers) :
    i.name ∈ (g.syncInputs separate).inputNames ↔ separate = false := by
  cases separate with
  | true =>
      refine iff_of_false (fun h => ?_) (by simp)
      obtain ⟨v, hv, heq⟩ := List.mem_map.1 h
      rw [inputs_syncInputs_true] at hv
      refine (mem_runtimeInputs.1 hv).2 ?_
      rw [heq]
      exact List.mem_map_of_mem (mem_initializers_syncInputs.1 hi).1
  | false =>
      refine iff_of_true ?_ rfl
      obtain ⟨missing, inputs, present⟩ := @inputs_syncInputs_false g
      cases hm : missing i with
      | false =>
          obtain ⟨v, hv, heq⟩ := present i hi hm
          exact List.mem_map.2 ⟨v, hv, heq⟩
      | true =>
          refine List.mem_map.2 ⟨i.valueInfo, ?_, rfl⟩
          rw [inputs]
          exact List.mem_append_right _ (List.mem_map_of_mem (List.mem_filter.2 ⟨hi, hm⟩))

/-- Inputs and initializers can be made to agree. -/
theorem Ready.syncInputs (h : g.Ready) (separate : Bool) : (g.syncInputs separate).Ready := by
  have runtime := runtimeInputs_syncInputs (g := g) separate
  have same : g.syncInputs separate = { g with
      inputs := (g.syncInputs separate).inputs
      initializers := (g.syncInputs separate).initializers } := by
    cases separate <;> rfl
  rw [same]
  refine h.withInterface ?_ ?_ (fun x hx hdef => ?_) fun v hv => ?_
  · rw [initializers_syncInputs]
    exact List.filter_sublist
  · rw [← runtime, runtimeInputs_eq_filter]
  · by_cases hi : x ∈ g.initializerNames
    · exact Or.inr (mem_initializerNames_syncInputs.2 ⟨hi, hx⟩)
    · obtain ⟨v, hv, rfl⟩ := List.mem_map.1 (hdef.resolve_right hi)
      have needed : v ∈ (g.syncInputs separate).runtimeInputs :=
        runtime ▸ mem_runtimeInputs.2 ⟨hv, hi⟩
      exact Or.inl (List.mem_map_of_mem (mem_runtimeInputs.1 needed).1)
  · rcases mem_inputs_syncInputs hv with hv | ⟨i, rfl⟩
    · exact h.sound.storable.inputs v hv
    · intro m hm
      cases hm

end
end Graph

/-! ## Models -/

namespace Model

variable {m : Model} {o : Options}

/-- A ready graph is simplified without an error, and the result is ready. -/
theorem simplifyGraph_succeeds (names : o.includeSubgraph = false ∨ o.KeepsNames) {g : Graph}
    (h : g.Ready) : (m.simplifyGraph o g).Succeeds Graph.Ready := by
  have run : ∀ (s : Simplifier) (b : Bool), s.options = o →
      (s.run (g.withoutDefaults b)).Succeeds ((g.withoutDefaults b).Evolves s.options.KeepsNames) := by
    rintro s b rfl
    exact Simplifier.simplifyGraph_succeeds names _ (Graph.withoutDefaults_sound h.sound b)
      Scope.Storable.nil _
  unfold simplifyGraph
  refine (run _ _ rfl).bind fun simplified hs => ?_
  obtain ⟨sound, refines⟩ := Graph.restoreDefaults_sound h.sound hs.sound hs.refines
  have complete := h.refine refines sound
  have synced := complete.syncInputs (!m.initializersOverridable)
  refine (Simplifying.Succeeds.sorted synced.sound).bind fun sorted hsorted => ?_
  have ready := synced.simplifies hsorted
  exact (Simplifying.Succeeds.ofExcept ready.valid trivial).bind (Q := fun _ => True) fun _ _ =>
    .pure ready

end Model

theorem Graph.ensures_isEquivalent (reference simplified : Graph) (version : Option Int64)
    (o : Options) :
    Harmless (reference.isEquivalent simplified version o) fun _ => True := by
  have each : ∀ seed, Harmless (reference.agreesOn simplified version o seed) fun _ => True := by
    intro seed
    unfold agreesOn
    refine Harmless.bind (.mapError (fun _ _ => trivial) fun _ _ => by simp) fun inputs _ => ?_
    refine Harmless.bind (.mapError (fun _ _ => trivial) fun _ _ => by simp) fun expected _ => ?_
    exact Harmless.bind (.mapError (fun _ _ => trivial) fun _ _ => by simp) fun actual _ =>
      .ok trivial
  have all : ∀ l : List Nat, Harmless (l.mapM fun i =>
      reference.agreesOn simplified version o (.ofNat i)) fun _ => True := by
    intro l
    induction l with
    | nil => exact .ok trivial
    | cons i rest ih =>
        rw [List.mapM_cons]
        exact (each _).bind fun _ _ => ih.bind fun _ _ => .ok trivial
  exact (all _).bind fun _ _ => .ok trivial

/-- Simplifying a ready model fails for no reason that has to do with a graph that is not valid, and
the result is ready. -/
theorem Model.simplify_harmless {m : Model} {o : Options}
    (names : o.includeSubgraph = false ∨ o.KeepsNames) (h : m.graph.Ready) :
    Harmless (m.simplify o) fun s => s.model.graph.Ready ∧ s.model.frame = m.frame := by
  unfold simplify
  refine Harmless.bind (.mapError (fun _ _ => trivial) fun _ _ => by simp) fun _ _ => ?_
  refine (h.prepare m.operatorVersion o).bind fun prepared hprepared => ?_
  obtain ⟨graph, hgraph, ready⟩ := simplifyGraph_succeeds (m := m) names hprepared {}
  generalize (m.simplifyGraph o prepared).run.run {} = result at hgraph
  obtain ⟨e, report⟩ := result
  cases hgraph
  refine Harmless.bind (.ok ready) fun graph hready => ?_
  exact (Graph.ensures_isEquivalent _ _ _ _).bind fun _ _ => .ok ⟨hready, rfl⟩

/-! ## Models that are loaded again -/

/-- Whether no node of a graph waits for itself, and the nodes that rules remove list no more outputs
than they produce and have their first operand. -/
structure Graph.Orderly (g : Graph) : Prop where
  acyclic : Node.Acyclic g.nodes
  fits : ∀ n ∈ g.nodes, n.Fits
  operand : ∀ n ∈ g.nodes, n.HasOperand
  flat : ∀ n ∈ g.nodes, n.Flat

namespace Model

/-! ## Loading -/

/-- What a loaded model satisfies. -/
structure Loaded (m : Model) : Prop where
  valid : m.graph.validate [] = .ok ()
  storable : m.graph.Everywhere Graph.FullyStorable
  clean : m.frame.Clean
  graph : m.frame.graph = none
  version : tooNew? m.frame.operatorSets = none

theorem ensures_load (bytes : Wire.Bytes) : Ensures (load bytes) Loaded := by
  unfold load
  refine Ensures.bind (.mapError (Message.Model.ensures_decode bytes)) fun stored clean => ?_
  split
  · exact .error
  · rename_i version
    split
    · exact .error
    · rename_i message given
      refine Ensures.bind (.mapError (Graph.ensures_ofMessage (clean.graph _ given)))
        fun g storable => ?_
      refine Ensures.bind (P := fun _ => g.validate [] = .ok ()) (.mapError fun _ h => h)
        fun _ valid => ?_
      refine Ensures.bind_any fun _ => .pure ⟨valid, storable, ?_, rfl, version⟩
      exact ⟨clean.unknown, by simp, clean.operatorSets, clean.metadata⟩

theorem Loaded.ready {m : Model} (h : m.Loaded) (orderly : m.graph.Everywhere Graph.Orderly) :
    m.graph.Ready := by
  refine ⟨h.valid, ?_⟩
  have control := (Graph.validate_eq_ok_iff.1 h.valid).2.2
  have storable := h.storable
  generalize m.graph = g at orderly control storable
  induction orderly with
  | intro here inside ih =>
      rename_i g
      refine .intro ⟨fun n hn => ?_, here.acyclic, storable.here.graph⟩ fun n hn p hp =>
        ih n hn p hp (control.inside hn hp) (storable.inside hn hp)
      exact ⟨control.here n hn, here.fits n hn, here.operand n hn, here.flat n hn,
        storable.here.nodes n hn⟩

theorem exists_load_serialize {m : Model} (clean : m.frame.Clean)
    (version : tooNew? m.frame.operatorSets = none) (ready : m.graph.Ready)
    (sized : m.graph.Everywhere Graph.Sized) (short : m.serialize.length < 2 ^ 64) :
    ∃ m', load m.serialize = .ok m' := by
  have storable : m.graph.Everywhere Graph.FullyStorable := ready.regular.mono fun g hg =>
    ⟨hg.storable, fun n hn => (hg.nodes n hn).storable⟩
  have decoded : Message.Model.decode m.serialize = .ok m.toMessage := by
    refine Message.Model.decode_encode ⟨clean.unknown, ?_, clean.operatorSets, clean.metadata⟩ short
    rintro _ ⟨⟩
    exact Graph.clean_toMessage storable
  obtain ⟨g, read, alike, nodes⟩ := Graph.exists_ofMessage_toMessage storable sized
  have valid : g.validate [] = .ok () := by
    obtain ⟨nodup, closed, control⟩ := Graph.validate_eq_ok_iff.1 ready.valid
    refine Graph.validate_eq_ok_iff.2 ⟨alike.definitions ▸ nodup, fun x hx => ?_,
      alike.control control⟩
    exact closed x ((alike.captures x).1 hx)
  obtain ⟨order, ordered⟩ := Graph.topologicalOrder_of_acyclic
    (Node.Alike.acyclic nodes ready.regular.here.acyclic)
  refine ⟨{ graph := g, frame := { m.frame with graph := none } }, ?_⟩
  have version' : tooNew? m.toMessage.operatorSets = none := version
  unfold load
  rw [decoded]
  dsimp only [Except.mapError, bind, Except.bind]
  rw [version']
  dsimp only [toMessage]
  rw [read]
  dsimp only
  rw [valid]
  dsimp only
  rw [ordered]
  rfl

end Model

end TensorGraph
