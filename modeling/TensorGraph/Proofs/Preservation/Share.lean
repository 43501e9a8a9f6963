import Mathlib
import TensorGraph.Proofs.Preservation.Forward
import TensorGraph.Proofs.Preservation.Prune
import TensorGraph.Proofs.Simplification.Sweep

/-!
# Runs of a graph without duplicate initializers

Input:

* a valid graph whose initializers have names.

Algorithm:

* the initializers are compared one after the other with those that are kept
  (`InitializerClasses.Grouped`), and each that is equal to one of them is paired with it;
* pair by pair, what reads the first initializer reads the second one.  Both have the same contents,
  so each graph on the way runs as the one before (`Graph.Exchangeable.runIn`);
* in the end nothing reads the first initializers, and they can be removed
  (`Graph.runIn_withoutInitializers`).

Main result:

* `Graph.mergeInitializers_sound_complete`: the graph stays valid, its runs give the same outputs, no
  input, output or reader of an input is touched, and no duplicate is left.
-/

namespace TensorGraph

open Tensor (Interchangeable Likeness)

variable {R : Tensor → Tensor → Prop} {version : Option Int64} {chance : Generator}

/-! ## Classes of initializers -/

namespace InitializerClasses

/-- The initializers that were compared so far: those that are kept have different contents, and each
other one is an input, an output, or equal to one that is kept. -/
structure Grouped (g : Graph) (done : List Initializer) (s : InitializerClasses) : Prop where
  kept : ∀ i ∈ s.kept, i ∈ done ∧ i.name ∉ g.inputNames
  distinct : s.kept.Pairwise fun i j => i.value.sameContents j.value = false
  duplicates : ∀ p ∈ s.duplicates, ∃ i ∈ done, ∃ j ∈ s.kept,
    p = (i.name, j.name) ∧ j.value.sameContents i.value = true
  covered : ∀ i ∈ done, i ∈ s.kept ∨ i.name ∈ s.duplicates.map Prod.fst ∨
    i.name ∈ g.inputNames ∨ i.name ∈ g.outputNames

variable {g : Graph} {done todo : List Initializer} {s : InitializerClasses}

/-- One more initializer is compared. -/
theorem Grouped.add (h : Grouped g done s) (i : Initializer) :
    Grouped g (done ++ [i]) (add g s i) := by
  have kept : ∀ j ∈ s.kept, j ∈ done ++ [i] ∧ j.name ∉ g.inputNames := fun j hj =>
    ⟨List.mem_append_left _ (h.kept j hj).1, (h.kept j hj).2⟩
  have duplicates : ∀ p ∈ s.duplicates, ∃ i' ∈ done ++ [i], ∃ j ∈ s.kept,
      p = (i'.name, j.name) ∧ j.value.sameContents i'.value = true := by
    intro p hp
    obtain ⟨i', hi', rest⟩ := h.duplicates p hp
    exact ⟨i', List.mem_append_left _ hi', rest⟩
  -- the last initializer is covered by what happens to it
  have covered : ∀ s' : InitializerClasses, (∀ j ∈ s.kept, j ∈ s'.kept) →
      (∀ p ∈ s.duplicates, p ∈ s'.duplicates) →
      (i ∈ s'.kept ∨ i.name ∈ s'.duplicates.map Prod.fst ∨ i.name ∈ g.inputNames ∨
        i.name ∈ g.outputNames) →
      ∀ j ∈ done ++ [i], j ∈ s'.kept ∨ j.name ∈ s'.duplicates.map Prod.fst ∨
        j.name ∈ g.inputNames ∨ j.name ∈ g.outputNames := by
    intro s' hkept hduplicates last j hj
    rcases List.mem_append.1 hj with hj | hj
    · refine (h.covered j hj).imp (hkept j) (Or.imp_left fun hd => ?_)
      obtain ⟨p, hp, heq⟩ := List.mem_map.1 hd
      exact List.mem_map.2 ⟨p, hduplicates p hp, heq⟩
    · rw [List.mem_singleton.1 hj]
      exact last
  unfold InitializerClasses.add
  split
  · rename_i hin
    exact ⟨kept, h.distinct, duplicates, covered s (fun _ hj => hj) (fun _ hp => hp)
      (Or.inr (Or.inr (Or.inl (Graph.isInput_iff.1 hin))))⟩
  · rename_i hin
    split
    · rename_i hfind
      have new : ∀ j ∈ s.kept, j.value.sameContents i.value = false := fun j hj => by
        simpa using List.find?_eq_none.1 hfind j hj
      refine ⟨fun j hj => ?_, ?_, fun p hp => ?_, covered _
        (fun j hj => List.mem_append_left _ hj) (fun _ hp => hp)
        (Or.inl (List.mem_append_right _ List.mem_cons_self))⟩
      · rcases List.mem_append.1 hj with hj | hj
        · exact kept j hj
        · cases List.mem_singleton.1 hj
          exact ⟨List.mem_append_right _ List.mem_cons_self,
            fun hmem => hin (Graph.isInput_iff.2 hmem)⟩
      · refine List.pairwise_append.2 ⟨h.distinct, List.pairwise_singleton _ _, fun j hj k hk => ?_⟩
        cases List.mem_singleton.1 hk
        exact new j hj
      · obtain ⟨i', hi', j, hj, rest⟩ := duplicates p hp
        exact ⟨i', hi', j, List.mem_append_left _ hj, rest⟩
    · rename_i other hfind
      split
      · rename_i hout
        exact ⟨kept, h.distinct, duplicates, covered s (fun _ hj => hj) (fun _ hp => hp)
          (Or.inr (Or.inr (Or.inr (Graph.isOutput_iff.1 hout))))⟩
      · refine ⟨kept, h.distinct, fun p hp => ?_, covered _ (fun _ hj => hj)
          (fun _ hp => List.mem_append_left _ hp) (Or.inr (Or.inl ?_))⟩
        · rcases List.mem_append.1 hp with hp | hp
          · exact duplicates p hp
          · cases List.mem_singleton.1 hp
            exact ⟨i, List.mem_append_right _ List.mem_cons_self, other,
              List.mem_of_find?_eq_some hfind, rfl, by simpa using List.find?_some hfind⟩
        · exact List.mem_map.2 ⟨_, List.mem_append_right _ List.mem_cons_self, rfl⟩

/-- All initializers of a graph are compared. -/
theorem grouped_initializers (g : Graph) :
    Grouped g g.initializers (g.initializers.foldl (InitializerClasses.add g) {}) := by
  have all : ∀ todo done s, Grouped g done s →
      Grouped g (done ++ todo) (todo.foldl (InitializerClasses.add g) s) := by
    intro todo
    induction todo with
    | nil =>
        intro done s h
        rwa [List.append_nil]
    | cons i rest ih =>
        intro done s h
        have := ih _ _ (h.add i)
        rwa [List.append_assoc] at this
  exact all g.initializers [] {} ⟨by simp, .nil, by simp, by simp⟩

end InitializerClasses

/-! ## Exchanging initializers -/

namespace Graph

variable {g : Graph} {old new : String} {pairs : List (String × String)}

theorem Unique.replaceUses (unique : g.Unique) (old new : String) :
    (g.replaceUses old new).Unique := by
  refine ⟨made_replaceUses g old new ▸ unique.nodup, fun x hx => ?_⟩
  rw [produced_replaceUses, innerNames_replaceUses]
  refine unique.inputs x ?_
  rwa [replaceUses_eq] at hx

/-- Whether an initializer that is no input and no output has a related value as another one that is
no input. -/
structure Exchangeable (R : Tensor → Tensor → Prop) (g : Graph) (old new : String) : Prop where
  named : old ≠ "" ∧ new ≠ ""
  source : old ∈ g.initializerNames ∧ old ∉ g.inputNames ∧ old ∉ g.outputNames
  target : new ∈ g.initializerNames ∧ new ∉ g.inputNames
  values : Option.Rel R (g.constants.get? old) (g.constants.get? new)

namespace Exchangeable

/-- It still does when something else is redirected. -/
theorem replaceUses (h : g.Exchangeable R old new) (old' new' : String) :
    (g.replaceUses old' new').Exchangeable R old new := by
  rw [replaceUses_eq]
  exact ⟨h.named, h.source, h.target, h.values⟩

theorem forwardValue_eq (h : g.Exchangeable R old new) :
    g.forwardValue (old, new) = g.replaceUses old new := by
  unfold forwardValue
  exact if_neg fun ho => h.source.2.2 (isOutput_iff.1 ho)

variable [Likeness R]

/-- What reads the first one may read the second one. -/
theorem image (h : g.Exchangeable R old new) (unique : g.Unique) :
    g.Image R version chance chance (substituteName old new) (g.replaceUses old new) := by
  have defined : ∀ x ∈ g.initializerNames, x ∈ g.definedNames := fun x hx =>
    mem_definedNames.2 (Or.inr (Or.inl hx))
  have unmade : ∀ x ∈ g.initializerNames, x ∉ g.produced := fun x hx hp =>
    unique.produced_not_mem_initializerNames hp hx
  have fresh : new ∉ g.innerNames := unique.not_mem_innerNames (defined new h.target.1)
  rw [replaceUses_eq]
  refine .of_fixed ?_ (List.forall₂_same.2 fun o ho => ?_) rfl
    (substituteName_of_ne h.named.1.symm) (fun x hx => substituteName_of_ne fun heq => ?_)
    (fun x _ hx => ?_) (fun x hx => ?_) fun x hx => ?_
  · rw [List.forall₂_map_right_iff, List.forall₂_same]
    intro n hn
    exact ⟨Node.follows_redirect h.named.1 h.named.2
      (fun hi => fresh (mem_innerNames.2 ⟨n, hn, hi⟩)) rfl rfl (fun _ => rfl)
      fun p _ => everywhere_sameDraws version chance p.2, rfl⟩
  · refine (substituteName_of_ne fun heq => h.source.2.2 ?_).symm
    exact heq ▸ List.mem_map_of_mem ho
  · subst heq
    exact hx.elim (unmade x h.source.1) h.source.2.1
  · by_cases hold : x = old
    · rw [hold, substituteName_self] at hx
      exact absurd hx (not_or.2 ⟨unmade new h.target.1, h.target.2⟩)
    · exact substituteName_of_ne hold
  · by_cases hold : x = old
    · rw [hold, substituteName_self]
      exact h.values
    · rw [substituteName_of_ne hold]
      exact Likeness.rel_refl _
  · obtain ⟨-, hd⟩ := mem_captures.1 hx
    have hne : x ≠ old := fun heq => hd (heq ▸ defined old h.source.1)
    have given := not_given_of_not_mem hd
    rw [substituteName_of_ne hne]
    exact given

/-- Both graphs run alike. -/
theorem runIn (h : g.Exchangeable R old new) (unique : g.Unique) (inputs scope : Scope Tensor) :
    EndsAlike (List.Forall₂ R) (g.runIn version chance inputs scope)
      ((g.replaceUses old new).runIn version chance inputs scope) := by
  refine (h.image unique).runIn (fun x hx => ?_) fun x hx => ?_
  · have hne : x ≠ old := fun heq => h.source.2.1 (heq ▸ hx)
    rw [substituteName_of_ne hne]
    exact Likeness.rel_refl _
  · have hne : x ≠ old := fun heq => (mem_captures.1 hx).2
      (heq ▸ mem_definedNames.2 (Or.inr (Or.inl h.source.1)))
    rw [substituteName_of_ne hne]
    exact Likeness.rel_refl _

end Exchangeable

/-- What holds of a graph, and is kept when the readers of one initializer are redirected, holds when
those of all pairs are. -/
theorem foldl_forwardValue_induct {Q : Graph → Prop}
    (step : ∀ g, ∀ p ∈ pairs, g.Unique → g.Exchangeable R p.1 p.2 → Q g →
      Q (g.replaceUses p.1 p.2))
    (unique : g.Unique) (all : ∀ p ∈ pairs, g.Exchangeable R p.1 p.2) (h : Q g) :
    Q (pairs.foldl forwardValue g) := by
  induction pairs generalizing g with
  | nil => exact h
  | cons pair rest ih =>
      have first := all pair List.mem_cons_self
      rw [List.foldl_cons, first.forwardValue_eq]
      refine ih (fun g p hp => step g p (List.mem_cons_of_mem _ hp)) (unique.replaceUses _ _)
        (fun p hp => ?_) (step g pair List.mem_cons_self unique first h)
      exact (all p (List.mem_cons_of_mem _ hp)).replaceUses _ _

/-- Afterwards the graph runs as before. -/
theorem runIn_foldl_forwardValue [Likeness R] (trans : ∀ a b c, R a b → R b c → R a c)
    (unique : g.Unique) (all : ∀ p ∈ pairs, g.Exchangeable R p.1 p.2)
    (inputs scope : Scope Tensor) :
    EndsAlike (List.Forall₂ R) (g.runIn version chance inputs scope)
      ((pairs.foldl forwardValue g).runIn version chance inputs scope) := by
  refine foldl_forwardValue_induct
    (Q := fun h => EndsAlike (List.Forall₂ R) (g.runIn version chance inputs scope)
      (h.runIn version chance inputs scope))
    (fun h p _ hunique exchangeable before => ?_) unique all
    (.refl Likeness.forall₂_refl _)
  exact before.trans (exchangeable.runIn hunique inputs scope) fun _ _ _ => forall₂_trans trans

/-! ## Removing initializers that nothing reads -/

/-- The second value of the pair whose first value a name is, if there is one. -/
def representative (pairs : List (String × String)) (x : String) : String :=
  (pairs.lookup x).getD x

theorem representative_of_not_mem {x : String} (h : x ∉ pairs.map Prod.fst) :
    representative pairs x = x := by
  unfold representative
  have none : pairs.lookup x = none := by
    rw [List.lookup_eq_none_iff]
    intro p hp
    simpa using fun heq : x = p.1 => h (heq ▸ List.mem_map_of_mem hp)
  rw [none]
  rfl

theorem mem_representative {x : String} (h : x ∈ pairs.map Prod.fst) :
    (x, representative pairs x) ∈ pairs := by
  unfold representative
  cases hx : pairs.lookup x with
  | none =>
      obtain ⟨p, hp, rfl⟩ := List.mem_map.1 h
      simpa using List.lookup_eq_none_iff.1 hx p hp
  | some y =>
      obtain ⟨before, after, rfl, -⟩ := List.lookup_eq_some_iff.1 hx
      exact List.mem_append_right _ List.mem_cons_self

/-- All other initializers keep their values. -/
theorem get?_constants_withoutInitializers (unique : g.Unique) {removed : List String} {x : String}
    (hx : x ∉ removed) : (g.withoutInitializers removed).constants.get? x = g.constants.get? x := by
  have nodup := unique.nodup_initializerNames
  by_cases hi : x ∈ g.initializerNames
  · obtain ⟨i, hmem, rfl⟩ := List.mem_map.1 hi
    have nodup' : (g.withoutInitializers removed).initializerNames.Nodup :=
      (List.filter_sublist.map _).nodup nodup
    rw [get?_constants_of_mem nodup hmem,
      get?_constants_of_mem nodup' (mem_initializers_withoutInitializers.2 ⟨hmem, hx⟩)]
  · rw [get?_constants_eq_none hi, get?_constants_eq_none]
    intro hmem
    obtain ⟨i, hi', rfl⟩ := List.mem_map.1 hmem
    exact hi (List.mem_map_of_mem (mem_initializers_withoutInitializers.1 hi').1)

/-- A graph is an image of itself without initializers that nothing reads, when others have related
values. -/
theorem image_withoutInitializers [Likeness R] (unique : g.Unique)
    (all : ∀ p ∈ pairs, g.Exchangeable R p.1 p.2) (kept : ∀ p ∈ pairs, p.2 ∉ pairs.map Prod.fst)
    (unread : ∀ n ∈ g.nodes, ∀ x ∈ n.reads, x ∉ pairs.map Prod.fst) :
    g.Image R version chance chance (representative pairs)
      (g.withoutInitializers (pairs.map Prod.fst)) := by
  have removed : ∀ x ∈ pairs.map Prod.fst, g.Exchangeable R x (representative pairs x) ∧
      representative pairs x ∉ pairs.map Prod.fst := fun x hx =>
    ⟨all _ (mem_representative hx), kept _ (mem_representative hx)⟩
  have unnamed : "" ∉ pairs.map Prod.fst := fun h => (removed "" h).1.named.1 rfl
  have fixed : ∀ n ∈ g.nodes, ∀ x ∈ n.reads, representative pairs x = x := fun n hn x hx =>
    representative_of_not_mem (unread n hn x hx)
  refine .of_fixed (List.forall₂_same.2 fun n hn =>
      ⟨Node.follows_of_fixed (fun x hx => ?_) (fixed n hn), rfl⟩)
    (List.forall₂_same.2 fun o ho => (representative_of_not_mem fun hmem => ?_).symm) rfl
    (representative_of_not_mem unnamed) (fun x hx => representative_of_not_mem fun hmem => ?_)
    (fun x _ hx => representative_of_not_mem fun hmem => ?_) (fun x _ => ?_) fun x hx => ?_
  · by_cases hne : x = ""
    · rw [hne]
      exact representative_of_not_mem unnamed
    · exact fixed n hn x (Node.mem_reads.2 (Or.inl (Node.mem_presentInputs.2 ⟨hx, hne⟩)))
  · exact (removed _ hmem).1.source.2.2 (List.mem_map_of_mem ho)
  · obtain ⟨stored, notInput, -⟩ := (removed x hmem).1.source
    exact hx.elim (fun hp => unique.produced_not_mem_initializerNames hp stored) notInput
  · obtain ⟨stored, notInput⟩ := (removed x hmem).1.target
    exact hx.elim (fun hp => unique.produced_not_mem_initializerNames hp stored) notInput
  · by_cases hmem : x ∈ pairs.map Prod.fst
    · obtain ⟨exchangeable, stays⟩ := removed x hmem
      rw [get?_constants_withoutInitializers unique stays]
      exact exchangeable.values
    · rw [representative_of_not_mem hmem, get?_constants_withoutInitializers unique hmem]
      exact Likeness.rel_refl _
  · have undefined := (mem_captures.1 hx).2
    obtain ⟨notInput, notStored⟩ := not_given_of_not_mem undefined
    rw [representative_of_not_mem fun hmem => notStored (removed x hmem).1.source.1]
    refine ⟨notInput, fun hmem => ?_⟩
    obtain ⟨i, hi, rfl⟩ := List.mem_map.1 hmem
    exact notStored (List.mem_map_of_mem (mem_initializers_withoutInitializers.1 hi).1)

/-- Without them it runs alike. -/
theorem runIn_withoutInitializers [Likeness R] (unique : g.Unique)
    (all : ∀ p ∈ pairs, g.Exchangeable R p.1 p.2) (kept : ∀ p ∈ pairs, p.2 ∉ pairs.map Prod.fst)
    (unread : ∀ n ∈ g.nodes, ∀ x ∈ n.reads, x ∉ pairs.map Prod.fst) (inputs scope : Scope Tensor) :
    EndsAlike (List.Forall₂ R) (g.runIn version chance inputs scope)
      ((g.withoutInitializers (pairs.map Prod.fst)).runIn version chance inputs scope) := by
  have stored : ∀ x ∈ pairs.map Prod.fst, x ∈ g.initializerNames ∧ x ∉ g.inputNames := by
    intro x hx
    obtain ⟨p, hp, rfl⟩ := List.mem_map.1 hx
    exact ⟨(all p hp).source.1, (all p hp).source.2.1⟩
  refine (image_withoutInitializers unique all kept unread).runIn (fun x hx => ?_) fun x hx => ?_
  · rw [representative_of_not_mem fun hmem => (stored x hmem).2 hx]
    exact Likeness.rel_refl _
  · rw [representative_of_not_mem fun hmem =>
      (not_given_of_not_mem (mem_captures.1 hx).2).2 (stored x hmem).1]
    exact Likeness.rel_refl _

/-! ## Merged initializers -/

/-- Each duplicate can be exchanged for the initializer that is kept. -/
theorem exchangeable_of_mem_duplicateInitializers (unique : g.Unique)
    (named : ∀ x ∈ g.initializerNames, x ≠ "") :
    ∀ p ∈ g.duplicateInitializers, g.Exchangeable Interchangeable p.1 p.2 := by
  intro p hp
  obtain ⟨hsource, htarget, hin, hout, -⟩ := (duplicateInitializers_spec unique).2 p hp
  have grouped := InitializerClasses.grouped_initializers g
  obtain ⟨i, hi, j, hj, rfl, same⟩ := grouped.duplicates p hp
  obtain ⟨hj, hj'⟩ := grouped.kept j hj
  refine ⟨⟨named _ hsource, named _ htarget⟩, ⟨hsource, hin, hout⟩, ⟨htarget, hj'⟩, ?_⟩
  rw [get?_constants_of_mem unique.nodup_initializerNames hi,
    get?_constants_of_mem unique.nodup_initializerNames hj]
  exact .some (Or.inr (Tensor.sameContents_symm same))

theorem mergeInitializers_eq_withoutInitializers (unique : g.Unique) :
    g.mergeInitializers.1 = (g.duplicateInitializers.foldl forwardValue g).withoutInitializers
      (g.duplicateInitializers.map Prod.fst) := by
  rw [← foldl_replaceUses_eq fun p hp => ((duplicateInitializers_spec unique).2 p hp).2.2.2.1]
  rfl

/-- The initializers that stay. -/
theorem mem_initializers_mergeInitializers {i : Initializer} :
    i ∈ g.mergeInitializers.1.initializers ↔
      i ∈ g.initializers ∧ i.name ∉ g.duplicateInitializers.map Prod.fst := by
  unfold mergeInitializers
  simp [initializers_foldl_replaceUses]

/-- The interface and the captured names are as before, and no name is made more often. -/
theorem pending_nil_mergeInitializers (unique : g.Unique)
    (named : ∀ x ∈ g.initializerNames, x ≠ "") :
    Pending g.captures g g.mergeInitializers.1 [] := by
  rw [mergeInitializers_eq unique]
  exact (Pending.foldl (Q := fun _ _ => True) unique (fun _ _ _ _ _ _ _ => trivial)
    (pending_mergeInitializers unique named) trivial).1

/-- The graph stays valid. -/
theorem mergeInitializers_valid {outer : List String} (valid : g.validate outer = .ok ())
    (named : ∀ x ∈ g.initializerNames, x ≠ "") :
    g.mergeInitializers.1.validate outer = .ok () := by
  obtain ⟨nodup, captured, controlled⟩ := validate_eq_ok_iff.1 valid
  have unique := Unique.of_nodup nodup
  have last := pending_nil_mergeInitializers unique named
  have nodes : ∀ n ∈ g.mergeInitializers.1.nodes, n.DeepControlled := by
    rw [mergeInitializers_eq unique]
    exact (pending_mergeInitializers unique named).foldl_nodes (A := fun _ => True) unique
      (fun _ _ _ _ _ hn fresh => hn.redirect fresh) (fun _ _ _ _ _ hn fresh => hn.rename fresh)
      (fun _ _ => trivial) fun n hn => everywhere_controlled_iff.1 controlled n hn
  refine validate_eq_ok_iff.2 ⟨?_, fun x hx => ?_, everywhere_controlled_iff.2 nodes⟩
  · rw [List.nodup_iff_count] at nodup ⊢
    exact fun x => Nat.le_trans (count_allDefinitions_le last.inputs last.defaults (last.made x))
      (nodup x)
  · exact captured x ((last.captures x hx).resolve_right (by simp))

/-- Every run ends as before. -/
theorem runIn_mergeInitializers (unique : g.Unique) (named : ∀ x ∈ g.initializerNames, x ≠ "")
    (inputs scope : Scope Tensor) :
    EndsAlike (List.Forall₂ Interchangeable) (g.runIn version chance inputs scope)
      (g.mergeInitializers.1.runIn version chance inputs scope) := by
  have all := exchangeable_of_mem_duplicateInitializers unique named
  have trans : ∀ a b c : Tensor, Interchangeable a b → Interchangeable b c → Interchangeable a c :=
    fun _ _ _ => .trans
  obtain ⟨unique', all'⟩ : (g.duplicateInitializers.foldl forwardValue g).Unique ∧
      ∀ p ∈ g.duplicateInitializers, (g.duplicateInitializers.foldl forwardValue g).Exchangeable
        Interchangeable p.1 p.2 :=
    foldl_forwardValue_induct (Q := fun h => h.Unique ∧ ∀ p ∈ g.duplicateInitializers,
      h.Exchangeable Interchangeable p.1 p.2)
      (fun h p _ _ _ before => ⟨before.1.replaceUses _ _,
        fun q hq => (before.2 q hq).replaceUses _ _⟩) unique all ⟨unique, all⟩
  have last := pending_nil_mergeInitializers unique named
  rw [mergeInitializers_eq_withoutInitializers unique] at last ⊢
  refine (runIn_foldl_forwardValue trans unique all inputs scope).trans
    (runIn_withoutInitializers unique' all' (fun p hp => ?_) (fun n hn x hx hmem => ?_) inputs
      scope) fun _ _ _ => forall₂_trans trans
  · exact ((duplicateInitializers_spec unique).2 p hp).2.2.2.2
  · -- what is still read would be captured, but the graph defined it
    obtain ⟨p, hp, rfl⟩ := List.mem_map.1 hmem
    have source := (all' p hp).source
    have captured : p.1 ∈ g.captures := by
      refine (last.captures p.1 (mem_captures.2 ⟨Or.inl ⟨n, hn, hx⟩, fun hd => ?_⟩)).resolve_right
        (by simp)
      rcases mem_definedNames.1 hd with hd | hd | hd
      · exact source.2.1 hd
      · obtain ⟨i, hi, heq⟩ := List.mem_map.1 hd
        exact (mem_initializers_withoutInitializers.1 hi).2 (heq ▸ hmem)
      · exact unique'.produced_not_mem_initializerNames hd source.1
    exact (mem_captures.1 captured).2
      (mem_definedNames.2 (Or.inr (Or.inl (all p hp).source.1)))

/-- What a node newly reads is an initializer that stays and is no input. -/
theorem reads_mergeInitializers (unique : g.Unique) (named : ∀ x ∈ g.initializerNames, x ≠ "") :
    List.Forall₂ (fun n n' => ∀ x ∈ n'.reads, x ∈ n.reads ∨
      x ∈ g.mergeInitializers.1.initializerNames ∧ x ∉ g.inputNames)
      g.nodes g.mergeInitializers.1.nodes := by
  have all := exchangeable_of_mem_duplicateInitializers unique named
  have redirected := foldl_forwardValue_induct (Q := fun h => List.Forall₂ (fun n n' =>
    ∀ x ∈ n'.reads, x ∈ n.reads ∨ x ∈ g.duplicateInitializers.map Prod.snd) g.nodes h.nodes)
    (fun h p hp hunique exchangeable before => ?_) unique all
    (List.forall₂_same.2 fun _ _ _ => Or.inl)
  · rw [mergeInitializers_eq_withoutInitializers unique]
    refine redirected.imp fun n n' reads x hx => (reads x hx).imp_right fun hmem => ?_
    obtain ⟨p, hp, rfl⟩ := List.mem_map.1 hmem
    obtain ⟨hstays, hin⟩ := (all p hp).target
    refine ⟨?_, hin⟩
    rw [← mergeInitializers_eq_withoutInitializers unique]
    obtain ⟨i, hi, heq⟩ := List.mem_map.1 hstays
    rw [← heq]
    refine List.mem_map_of_mem (mem_initializers_mergeInitializers.2 ⟨hi, ?_⟩)
    rw [heq]
    exact ((duplicateInitializers_spec unique).2 p hp).2.2.2.2
  · -- redirected nodes read what they read before, or the second value of the pair
    have fresh : p.2 ∉ h.innerNames := hunique.not_mem_innerNames
      (mem_definedNames.2 (Or.inr (Or.inl exchangeable.target.1)))
    rw [replaceUses_eq, List.forall₂_map_right_iff]
    refine List.Forall₂.flip (forall₂_imp_of_mem before.flip fun n' hn' n reads x hx => ?_)
    obtain ⟨y, hy, rfl⟩ := (Node.mem_reads_redirect exchangeable.named.1 exchangeable.named.2
      fun hi => fresh (mem_innerNames.2 ⟨n', hn', hi⟩)).1 hx
    by_cases hold : y = p.1
    · rw [hold, substituteName_self]
      exact Or.inr (List.mem_map_of_mem hp)
    · rw [substituteName_of_ne hold]
      exact reads y hy

/-- The initializers that are neither inputs nor outputs. -/
def plainInitializers (g : Graph) : List Initializer :=
  g.initializers.filter fun i => !g.isInput i.name && !g.isOutput i.name

theorem mem_plainInitializers {i : Initializer} :
    i ∈ g.plainInitializers ↔
      i ∈ g.initializers ∧ i.name ∉ g.inputNames ∧ i.name ∉ g.outputNames := by
  unfold plainInitializers
  simp only [List.mem_filter, Bool.and_eq_true, Bool.not_eq_true', ← Bool.not_eq_true, isInput_iff,
    isOutput_iff]

/-- Plain initializers that stay have different contents. -/
theorem distinct_mergeInitializers (unique : g.Unique) (named : ∀ x ∈ g.initializerNames, x ≠ "") :
    g.mergeInitializers.1.plainInitializers.Pairwise fun i j =>
      i.value.sameContents j.value = false := by
  have grouped := InitializerClasses.grouped_initializers g
  have last := pending_nil_mergeInitializers unique named
  have kept : ∀ i ∈ g.mergeInitializers.1.plainInitializers,
      i ∈ (g.initializers.foldl (InitializerClasses.add g) {}).kept := by
    intro i hi
    obtain ⟨hi, hin, hout⟩ := mem_plainInitializers.1 hi
    obtain ⟨hi, stays⟩ := mem_initializers_mergeInitializers.1 hi
    unfold inputNames at hin
    unfold outputNames at hout
    rw [last.inputs] at hin
    rw [last.outputs] at hout
    rcases grouped.covered i hi with h | h | h | h
    · exact h
    · exact absurd h stays
    · exact absurd h hin
    · exact absurd h hout
  have : Std.Symm fun i j : Initializer => i.value.sameContents j.value = false := by
    refine ⟨fun i j h => ?_⟩
    rw [← Bool.not_eq_true] at h ⊢
    exact fun same => h (Tensor.sameContents_symm same)
  have nodup : g.mergeInitializers.1.plainInitializers.Nodup := by
    refine List.Sublist.nodup ?_ (List.Nodup.of_map _ unique.nodup_initializerNames)
    unfold plainInitializers mergeInitializers
    simp only [initializers_foldl_replaceUses]
    exact List.filter_sublist.trans List.filter_sublist
  exact nodup.pairwise_of_forall_ne fun i hi j hj hne =>
    grouped.distinct.forall (kept i hi) (kept j hj) hne

/-- Initializers of a stored graph have names. -/
theorem ensures_named_ofMessage (m : Message.Graph) :
    Ensures (ofMessage m) fun g => ∀ i ∈ g.initializers, i.name ≠ "" := by
  rw [ofMessage]
  refine .bind_any fun _ => .bind (.mapM fun t _ => ?_) fun is named => .pure named
  unfold Initializer.ofMessage
  dsimp only
  split
  · exact .error
  · rename_i named
    exact .bind_any fun _ => .pure fun empty => named (String.isEmpty_iff.2 empty)

/-- Equal initializers can be merged in every valid graph whose initializers have names, as they have
in all graphs that are read.  The merged graph is valid in the same scope, and every run gives
outputs with the same contents, or fails as it did before.  An initializer that is an input or an
output stays, what a node newly reads is an initializer that stays and is no input, and no two plain
initializers have the same contents any more. -/
theorem mergeInitializers_sound_complete {outer : List String} (valid : g.validate outer = .ok ())
    (named : ∀ i ∈ g.initializers, i.name ≠ "") :
    g.mergeInitializers.1.validate outer = .ok () ∧
    (∀ version chance inputs scope, EndsAlike (List.Forall₂ Interchangeable)
      (g.runIn version chance inputs scope)
      (g.mergeInitializers.1.runIn version chance inputs scope)) ∧
    (g.mergeInitializers.1.inputs = g.inputs ∧ g.mergeInitializers.1.outputs = g.outputs) ∧
    (∀ i ∈ g.initializers, i.name ∈ g.inputNames ∨ i.name ∈ g.outputNames →
      i ∈ g.mergeInitializers.1.initializers) ∧
    List.Forall₂ (fun n n' => ∀ x ∈ n'.reads, x ∈ n.reads ∨
      x ∈ g.mergeInitializers.1.initializerNames ∧ x ∉ g.inputNames)
      g.nodes g.mergeInitializers.1.nodes ∧
    g.mergeInitializers.1.plainInitializers.Pairwise fun i j =>
      i.value.sameContents j.value = false := by
  have unique := Unique.of_nodup (validate_eq_ok_iff.1 valid).1
  have named : ∀ x ∈ g.initializerNames, x ≠ "" := fun x hx => by
    obtain ⟨i, hi, rfl⟩ := List.mem_map.1 hx
    exact named i hi
  have last := pending_nil_mergeInitializers unique named
  refine ⟨mergeInitializers_valid valid named,
    fun version chance inputs scope => runIn_mergeInitializers unique named inputs scope,
    ⟨last.inputs, last.outputs⟩, fun i hi shown => ?_, reads_mergeInitializers unique named,
    distinct_mergeInitializers unique named⟩
  refine mem_initializers_mergeInitializers.2 ⟨hi, fun removed => ?_⟩
  obtain ⟨p, hp, heq⟩ := List.mem_map.1 removed
  obtain ⟨-, hin, hout⟩ := (exchangeable_of_mem_duplicateInitializers unique named p hp).source
  rcases shown with h | h
  · exact hin (heq ▸ h)
  · exact hout (heq ▸ h)

/-- A graph with four equal initializers, of which one is an input and one is an output.  Another one
is also read by a nested graph. -/
def fourThrees : Graph where
  inputs := [{ name := "x" }, { name := "c" }, { name := "given" }]
  initializers := [⟨"given", .scalar (3 : Int64)⟩, ⟨"first", .scalar (3 : Int64)⟩,
    ⟨"kept", .scalar (3 : Int64)⟩, ⟨"shown", .scalar (3 : Int64)⟩]
  nodes := [{ opType := "Add", inputs := ["x", "kept"], outputs := ["s"] },
    whenTrue doublesKept "y" "z"]
  outputs := [{ name := "s" }, { name := "y" }, { name := "shown" }]

/-- One of them is removed, and both its readers read another one. -/
theorem mergeInitializers_fourThrees :
    fourThrees.validate [] = .ok () ∧ (∀ i ∈ fourThrees.initializers, i.name ≠ "") ∧
      fourThrees.mergeInitializers.1.initializerNames = ["given", "first", "shown"] ∧
      fourThrees.mergeInitializers.1.nodes.map Node.reads = [["x", "first"], ["c", "first"]] ∧
      ∃ outs, fourThrees.mergeInitializers.1.run none ⟨0⟩
          [("x", .scalar (4 : Int64)), ("c", .scalar true), ("given", .scalar (5 : Int64))] =
        .ok outs ∧ List.Forall₂ Interchangeable
          [.scalar (7 : Int64), .scalar (6 : Int64), .scalar (3 : Int64)] outs := by
  have valid : fourThrees.validate [] = .ok () := by cbv
  have named : ∀ i ∈ fourThrees.initializers, i.name ≠ "" := by decide
  have run : fourThrees.run none ⟨0⟩
      [("x", .scalar (4 : Int64)), ("c", .scalar true), ("given", .scalar (5 : Int64))] =
        .ok [.scalar (7 : Int64), .scalar (6 : Int64), .scalar (3 : Int64)] := by
    let scope : Scope Tensor := [("s", .scalar (7 : Int64)), ("given", .scalar (5 : Int64)),
      ("c", .scalar true), ("x", .scalar (4 : Int64)), ("shown", .scalar (3 : Int64)),
      ("kept", .scalar (3 : Int64)), ("first", .scalar (3 : Int64)), ("given", .scalar (3 : Int64))]
    have inner : doublesKept.runIn none ⟨0⟩ [] scope = .ok [.scalar (6 : Int64)] :=
      runIn_of_next? [0] (by decide +kernel) rfl rfl rfl
    exact runIn_of_next? [0, 1] (by decide +kernel) rfl
      (Option.bind_eq_some_iff.2 ⟨_, next?_whenTrue (by decide) rfl inner, rfl⟩) rfl
  obtain ⟨-, same, -⟩ := mergeInitializers_sound_complete valid named
  exact ⟨valid, named, by cbv, by cbv, (same _ _ _ _).forth _ run⟩

end Graph
end TensorGraph
