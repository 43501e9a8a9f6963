import Mathlib.Data.List.Nodup
import Mathlib.Data.List.Perm.Subperm
import Mathlib.Data.Nat.Find
import TensorGraph.FreshName

/-!
# Fresh names are fresh

Input:

* names that are used, and stems.

Algorithm:

* the stem and then the stem with the numbers from 1 on are tried (`candidate`), as by a loop that counts
  with any kind of numbers (`SearchEnds`);
* a generator keeps the names that it gave among the used ones (`Answers`).

There are more candidates up to the number of used names than there are used names, so one of them is not
used.

Results:

* a fresh name is the first candidate that is not used (`freshName_first`), so it is not used
  (`freshName_not_mem`), and not empty if the stem is not (`freshName_ne_empty`);
* what a generator answers is fresh (`Answers.fresh`), and it answers with these names if it can count the
  used ones (`answers_iff`).
-/

namespace TensorGraph

/-! ## Candidates -/

/-- A stem with a number. -/
def numberedName (stem : String) (k : Nat) : String := stem ++ "_" ++ toString (k + 1)

theorem numberedName_injective (stem : String) : Function.Injective (numberedName stem) := by
  intro j k h
  have digits : Nat.toDigits 10 (j + 1) = Nat.toDigits 10 (k + 1) := by
    have := congrArg String.toList h
    simpa [numberedName] using this
  have := congrArg (fun ds => Nat.ofDigitChars 10 ds 0) digits
  simp only [Nat.ofDigitChars_toDigits (by decide : 1 < 10) (Nat.le_refl 10)] at this
  omega

theorem numberedName_ne_stem (stem : String) (k : Nat) : numberedName stem k ≠ stem := by
  intro h
  have lengths := congrArg String.length h
  have one : "_".length = 1 := rfl
  simp only [numberedName, String.length_append] at lengths
  omega

/-- The names that are tried for a stem, one after the other. -/
def candidate (stem : String) : Nat → String
  | 0 => stem
  | k + 1 => numberedName stem k

@[simp] theorem candidate_zero (stem : String) : candidate stem 0 = stem := rfl

@[simp] theorem candidate_succ (stem : String) (k : Nat) :
    candidate stem (k + 1) = numberedName stem k := rfl

theorem candidate_injective (stem : String) : Function.Injective (candidate stem) := by
  intro j k h
  cases j with
  | zero =>
      cases k with
      | zero => rfl
      | succ k => exact absurd h.symm (numberedName_ne_stem stem k)
  | succ j =>
      cases k with
      | zero => exact absurd h (numberedName_ne_stem stem j)
      | succ k => rw [numberedName_injective stem h]

theorem exists_candidate_not_mem (used : List String) (stem : String) :
    ∃ k ≤ used.length, candidate stem k ∉ used := by
  by_contra none
  push Not at none
  have sub : (List.range (used.length + 1)).map (candidate stem) ⊆ used := by
    intro x hx
    obtain ⟨k, hk, rfl⟩ := List.mem_map.1 hx
    exact none k (Nat.le_of_lt_succ (List.mem_range.1 hk))
  have nodup : ((List.range (used.length + 1)).map (candidate stem)).Nodup :=
    List.nodup_range.map (candidate_injective stem)
  have := (nodup.subperm sub).length_le
  rw [List.length_map, List.length_range] at this
  omega

/-- A fresh name is the first candidate that is not used. -/
theorem freshName_first (used : List String) (stem : String) :
    ∃ k ≤ used.length, freshName used stem = candidate stem k ∧ candidate stem k ∉ used ∧
      ∀ j < k, candidate stem j ∈ used := by
  have found : ∃ k, candidate stem k ∉ used :=
    (exists_candidate_not_mem used stem).imp fun _ h => h.2
  obtain ⟨bound, hbound, free⟩ := exists_candidate_not_mem used stem
  have before : ∀ j < Nat.find found, candidate stem j ∈ used := fun j hj =>
    not_not.1 (Nat.find_min found hj)
  have small : Nat.find found ≤ used.length := Nat.le_trans (Nat.find_min' found free) hbound
  refine ⟨Nat.find found, small, ?_, Nat.find_spec found, before⟩
  generalize hk : Nat.find found = k at before small
  have unused : candidate stem k ∉ used := hk ▸ Nat.find_spec found
  unfold freshName
  cases k with
  | zero => rw [if_neg (by simpa using unused), candidate]
  | succ k =>
      have first : (List.range used.length).find?
          ((fun name => !used.contains name) ∘ numberedName stem) = some k := by
        rw [List.find?_range_eq_some]
        refine ⟨by simpa using unused, List.mem_range.2 small, fun j hj => ?_⟩
        simpa using before (j + 1) (Nat.succ_lt_succ hj)
      rw [if_pos (by simpa using before 0 k.succ_pos)]
      show (((List.range used.length).map (numberedName stem)).find? _).getD _ = _
      rw [List.find?_map, first, Option.map_some, Option.getD_some, candidate_succ]

theorem freshName_not_mem (used : List String) (stem : String) : freshName used stem ∉ used := by
  obtain ⟨k, -, name, unused, -⟩ := freshName_first used stem
  rwa [name]

theorem freshName_ne_empty {used : List String} {stem : String} (h : stem ≠ "") :
    freshName used stem ≠ "" := by
  obtain ⟨k, -, name, -, -⟩ := freshName_first used stem
  rw [name]
  cases k with
  | zero => exact h
  | succ k =>
      intro empty
      have := congrArg String.length empty
      simp [numberedName] at this

/-! ## The search -/

section

variable {κ : Type} [OfNat κ 1] [Add κ] [ToString κ]

/-- Whether a search ends with a name.  It tries one name, and then the stem with the numbers after the given
one, until a name is not used.  If the numbers do not go on for ever it may have no end. -/
inductive SearchEnds (used : List String) (stem : String) :
    (name : String) → (suffix : κ) → (found : String) → Prop
  | unused {name : String} {suffix : κ} (h : name ∉ used) : SearchEnds used stem name suffix name
  | next {name found : String} {suffix : κ} (h : name ∈ used)
      (rest : SearchEnds used stem (stem ++ "_" ++ toString (suffix + 1)) (suffix + 1) found) :
      SearchEnds used stem name suffix found

namespace SearchEnds

variable {used : List String} {stem name found found' : String} {suffix : κ}

theorem not_mem (h : SearchEnds used stem name suffix found) : found ∉ used := by
  induction h with
  | unused h => exact h
  | next _ _ ih => exact ih

/-- A search finds one name only. -/
theorem unique (h : SearchEnds used stem name suffix found) (h' : SearchEnds used stem name suffix found') :
    found = found' := by
  induction h with
  | unused fresh =>
      cases h' with
      | unused _ => rfl
      | next taken _ => exact absurd taken fresh
  | next taken _ ih =>
      cases h' with
      | unused fresh => exact absurd taken fresh
      | next _ rest => exact ih rest

end SearchEnds

variable [OfNat κ 0]

/-- The number that is reached by counting up from zero. -/
def tally (κ : Type) [OfNat κ 0] [OfNat κ 1] [Add κ] : Nat → κ
  | 0 => 0
  | k + 1 => tally κ k + 1

/-- Whether numbers are written like natural numbers, as far as they are counted up. -/
def CountsTo (κ : Type) [OfNat κ 0] [OfNat κ 1] [Add κ] [ToString κ] (bound : Nat) : Prop :=
  ∀ k ≤ bound, toString (tally κ k) = toString k

/-- The search goes on to the first candidate that is not used. -/
theorem searchEnds_candidate {bound : Nat} (counts : CountsTo κ bound) {used : List String}
    {stem : String} {k : Nat} (hk : k ≤ bound) (unused : candidate stem k ∉ used)
    (before : ∀ j < k, candidate stem j ∈ used) {j : Nat} (hj : j ≤ k) :
    SearchEnds used stem (candidate stem j) (tally κ j) (candidate stem k) := by
  induction hj using Nat.decreasingInduction with
  | self => exact .unused unused
  | of_succ j hj ih =>
      have text : stem ++ "_" ++ toString (tally κ j + 1) = candidate stem (j + 1) := by
        rw [← tally, counts (j + 1) (Nat.le_trans hj hk)]
        rfl
      exact .next (before j hj) (text ▸ ih)

/-- The search ends with the fresh name, if it can count as many names as are used. -/
theorem searchEnds_iff {bound : Nat} (counts : CountsTo κ bound) {used : List String}
    {stem found : String} (h : used.length ≤ bound) :
    SearchEnds used stem stem (0 : κ) found ↔ found = freshName used stem := by
  obtain ⟨k, hk, name, unused, before⟩ := freshName_first used stem
  have first : SearchEnds used stem stem (0 : κ) (candidate stem k) :=
    searchEnds_candidate counts (Nat.le_trans hk h) unused before k.zero_le
  rw [name]
  constructor
  · exact fun other => other.unique first
  · rintro rfl
    exact first

/-- Natural numbers count up to any bound. -/
theorem countsTo_nat (bound : Nat) : CountsTo Nat bound := by
  intro k _
  have same : tally Nat k = k := by
    induction k with
    | zero => rfl
    | succ k ih => rw [tally, ih (by omega)]
  rw [same]

/-- Numbers of 32 bits count up to the largest one. -/
theorem countsTo_int32 : CountsTo Int32 2147483647 := by
  intro k hk
  have same : ∀ k, tally Int32 k = Int32.ofNat k := by
    intro k
    induction k with
    | zero => rfl
    | succ k ih =>
        rw [tally, ih, Int32.ofNat_add]
        rfl
  have value : (Int32.ofNat k).toInt = k := Int32.toInt_ofNat_of_lt (by omega)
  rw [same]
  show toString (Int32.ofNat k).toInt = toString k
  rw [value]
  rfl

/-! ## Requests one after the other -/

/-- Whether a generator answers requests for stems with names, one after the other.  Each name is used from
then on. -/
inductive Answers (κ : Type) [OfNat κ 0] [OfNat κ 1] [Add κ] [ToString κ] :
    (used stems names : List String) → Prop
  | nil {used : List String} : Answers κ used [] []
  | cons {used stems names : List String} {stem name : String}
      (first : SearchEnds used stem stem (0 : κ) name) (rest : Answers κ (name :: used) stems names) :
      Answers κ used (stem :: stems) (name :: names)

namespace Answers

variable {used stems names : List String}

theorem length_eq (h : Answers κ used stems names) : names.length = stems.length := by
  induction h with
  | nil => rfl
  | cons _ _ ih => rw [List.length_cons, List.length_cons, ih]

/-- Requests after others are answered when the names that were given are used. -/
theorem append (h : Answers κ used stems names) {stems' names' : List String}
    (h' : Answers κ (names.reverse ++ used) stems' names') :
    Answers κ used (stems ++ stems') (names ++ names') := by
  induction h with
  | nil => exact h'
  | cons first _ ih => exact .cons first (ih (by simpa using h'))

/-- However a generator counts, the names that it gives are fresh, and no two of them are the same. -/
theorem fresh (h : Answers κ used stems names) : names.Nodup ∧ ∀ name ∈ names, name ∉ used := by
  induction h with
  | nil => simp
  | @cons used stems names stem name first _ ih =>
      obtain ⟨nodup, fresh⟩ := ih
      refine ⟨List.nodup_cons.2 ⟨fun hname => fresh name hname List.mem_cons_self, nodup⟩, ?_⟩
      intro other hother
      rcases List.mem_cons.1 hother with rfl | hother
      · exact first.not_mem
      · exact fun hused => fresh other hother (List.mem_cons_of_mem _ hused)

end Answers

/-- The fresh names for some stems, each of which is used from then on. -/
def freshNames (used : List String) : (stems : List String) → List String
  | [] => []
  | stem :: rest => freshName used stem :: freshNames (freshName used stem :: used) rest

/-- A generator answers with the fresh names, if it can count as many names as are used in the end. -/
theorem answers_iff {bound : Nat} (counts : CountsTo κ bound) {used stems names : List String}
    (h : used.length + stems.length ≤ bound) :
    Answers κ used stems names ↔ names = freshNames used stems := by
  induction stems generalizing used names with
  | nil =>
      constructor
      · intro answers
        cases answers
        rfl
      · rintro rfl
        exact .nil
  | cons stem rest ih =>
      have found : ∀ {name : String}, SearchEnds used stem stem (0 : κ) name ↔ name = freshName used stem :=
        searchEnds_iff counts (Nat.le_trans (Nat.le_add_right _ _) h)
      have later : ∀ {names : List String}, Answers κ (freshName used stem :: used) rest names ↔
          names = freshNames (freshName used stem :: used) rest := by
        refine ih ?_
        rw [List.length_cons] at h ⊢
        omega
      constructor
      · intro answers
        cases answers with
        | cons first others =>
            obtain rfl := found.1 first
            rw [later.1 others, freshNames]
      · rintro rfl
        exact .cons (found.2 rfl) (later.2 rfl)

end

theorem answers_nat_iff {used stems names : List String} :
    Answers Nat used stems names ↔ names = freshNames used stems :=
  answers_iff (countsTo_nat _) (Nat.le_refl _)

end TensorGraph
