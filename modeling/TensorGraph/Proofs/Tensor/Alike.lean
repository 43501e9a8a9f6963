import Mathlib.Data.List.Forall2
import TensorGraph.Operator.Fault

/-!
# Tensors that are alike

Input:

* two tensors, or two computations of tensors that may fail.

A tensor keeps the message that it was read from.  Two tensors are alike when they have the same
shape and the same elements, whatever messages they keep; elements that are not available for
computing are those in the message.  There are other relations of tensors that differ in their
messages only (`Tensor.Likeness`), and what computes without looking at messages respects them all.

Results:

* being alike is an equivalence, and functions that do not look at messages cannot tell tensors of any
  likeness apart (`Tensor.Likeness.apply_eq`);
* a calculus for computations that do the same on related arguments (`Matches`), with one rule for
  each way to build a computation;
* what is read from inputs that are related (`Inputs.Related`);
* having the same contents is a likeness too (`Tensor.Interchangeable`).
-/

namespace TensorGraph

/-! ## Tensors -/

theorem forall₂_trans {α : Type} {R : α → α → Prop} (trans : ∀ x y z, R x y → R y z → R x z)
    {xs ys zs : List α} (h : List.Forall₂ R xs ys) (h' : List.Forall₂ R ys zs) :
    List.Forall₂ R xs zs := by
  induction h generalizing zs with
  | nil =>
      cases h'
      exact .nil
  | cons first _ ih =>
      cases h' with
      | cons first' rest => exact .cons (trans _ _ _ first first') (ih rest)

namespace Tensor

/-- Whether two tensors have the same shape and the same elements. -/
structure Alike (a b : Tensor) : Prop where
  shape : a.shape = b.shape
  elements : a.elements = b.elements
  source : a.isEvaluable = false → a.source = b.source

namespace Alike

variable {a b c : Tensor}

@[refl] theorem refl (a : Tensor) : Alike a a := ⟨rfl, rfl, fun _ => rfl⟩

theorem isEvaluable (h : Alike a b) : a.isEvaluable = b.isEvaluable := by
  unfold Tensor.isEvaluable
  rw [h.elements]

@[symm] theorem symm (h : Alike a b) : Alike b a :=
  ⟨h.shape.symm, h.elements.symm, fun hb => (h.source (h.isEvaluable.trans hb)).symm⟩

@[trans] theorem trans (h : Alike a b) (h' : Alike b c) : Alike a c :=
  ⟨h.shape.trans h'.shape, h.elements.trans h'.elements,
    fun ha => (h.source ha).trans (h'.source (h.isEvaluable.symm.trans ha))⟩

theorem exists_source (h : Alike a b) : ∃ source, b = { a with source := source } := by
  obtain ⟨shape, elements, source⟩ := b
  obtain ⟨hshape, helements, -⟩ := h
  cases hshape
  cases helements
  exact ⟨source, rfl⟩

/-- A tensor that can be computed with is alike to any with its shape and elements. -/
theorem of_evaluable (shape : a.shape = b.shape) (elements : a.elements = b.elements)
    (evaluable : a.isEvaluable = true) : Alike a b :=
  ⟨shape, elements, fun h => by rw [evaluable] at h; cases h⟩

end Alike

/-- A relation of tensors that differ in the messages that they keep only. -/
class Likeness (R : Tensor → Tensor → Prop) : Prop where
  refl : ∀ t, R t t
  exists_source : ∀ {a b}, R a b → ∃ source, b = { a with source := source }

instance : Likeness Alike := ⟨.refl, Alike.exists_source⟩

instance : Likeness Eq := ⟨fun _ => rfl, fun {a _} h => ⟨a.source, h.symm⟩⟩

namespace Likeness

variable {R : Tensor → Tensor → Prop} [Likeness R] {a b : Tensor}

instance : Likeness (flip R) := by
  refine ⟨refl (R := R), fun {a b} h => ⟨b.source, ?_⟩⟩
  obtain ⟨source, rfl⟩ := exists_source (R := R) h
  rfl

/-- A function that does not look at messages gives the same for related tensors. -/
theorem apply_eq {β : Type} (h : R a b) (f : Tensor → β)
    (blind : ∀ shape elements source source', f ⟨shape, elements, source⟩ = f ⟨shape, elements, source'⟩) :
    f a = f b := by
  obtain ⟨source, rfl⟩ := exists_source h
  exact blind a.shape a.elements a.source source

theorem shape (h : R a b) : a.shape = b.shape := apply_eq h Tensor.shape fun _ _ _ _ => rfl

theorem elements (h : R a b) : a.elements = b.elements :=
  apply_eq h Tensor.elements fun _ _ _ _ => rfl

theorem elementType (h : R a b) : a.elementType = b.elementType :=
  congrArg Elements.elementType (elements h)

theorem rank (h : R a b) : a.rank = b.rank := congrArg List.length (shape h)

theorem size (h : R a b) : a.size = b.size := congrArg elementCount (shape h)

theorem array? (h : R a b) (α : Type) [Element α] : a.array? α = b.array? α :=
  congrArg Element.unwrap? (elements h)

theorem item? (h : R a b) (α : Type) [Element α] : a.item? α = b.item? α :=
  apply_eq h (Tensor.item? α) fun _ _ _ _ => rfl

theorem intList (h : R a b) : a.intList = b.intList :=
  apply_eq h Tensor.intList fun _ _ _ _ => rfl

theorem forall₂_refl (ts : List Tensor) : List.Forall₂ R ts ts :=
  List.forall₂_same.2 fun t _ => refl t

end Likeness

/-- Lists of tensors that are alike in pairs. -/
abbrev AllAlike : List Tensor → List Tensor → Prop := List.Forall₂ Alike

theorem AllAlike.symm {ts us : List Tensor} (h : AllAlike ts us) : AllAlike us ts := by
  induction h with
  | nil => exact .nil
  | cons first _ ih => exact .cons first.symm ih

theorem AllAlike.trans {ts us vs : List Tensor} (h : AllAlike ts us) (h' : AllAlike us vs) :
    AllAlike ts vs := forall₂_trans (fun _ _ _ => .trans) h h'

end Tensor

/-! ## Computations that may fail -/

/-- Whether the second computation has a result whenever the first one has, and a related one. -/
def Matches {ε ε' α β : Type} (R : α → β → Prop) (r : Except ε α) (r' : Except ε' β) : Prop :=
  ∀ x, r = .ok x → ∃ y, r' = .ok y ∧ R x y

namespace Matches

variable {ε ε' ε₁ ε₂ α β γ δ : Type} {R : α → β → Prop} {S : γ → δ → Prop}

theorem ok {x : α} {y : β} (h : R x y) :
    Matches R (.ok x : Except ε α) (.ok y : Except ε' β) := by
  rintro _ ⟨⟩
  exact ⟨y, rfl, h⟩

theorem pure {x : α} {y : β} (h : R x y) :
    Matches R (Pure.pure x : Except ε α) (Pure.pure y : Except ε' β) := ok h

theorem error {e : ε} {r' : Except ε' β} : Matches R (.error e) r' := by
  rintro _ ⟨⟩

theorem of_eq {R : α → α → Prop} {r r' : Except ε α} (h : r = r') (refl : ∀ x, R x x) :
    Matches R r r' := by
  rintro x rfl
  exact ⟨x, h.symm, refl x⟩

theorem bind {r : Except ε α} {r' : Except ε' β} {f : α → Except ε γ} {f' : β → Except ε' δ}
    (h : Matches R r r') (next : ∀ x y, R x y → Matches S (f x) (f' y)) :
    Matches S (r >>= f) (r' >>= f') := by
  intro z hz
  cases r with
  | error e => cases hz
  | ok x =>
      obtain ⟨y, rfl, hxy⟩ := h x rfl
      exact next x y hxy z hz

/-- The same computation first. -/
theorem bind_same {r : Except ε α} {f : α → Except ε γ} {f' : α → Except ε δ}
    (next : ∀ x, Matches S (f x) (f' x)) : Matches S (r >>= f) (r >>= f') :=
  bind (of_eq (R := Eq) rfl fun _ => rfl) fun x _ same => same ▸ next x

theorem map {r : Except ε α} {r' : Except ε' β} {f : α → γ} {f' : β → δ} (h : Matches R r r')
    (next : ∀ x y, R x y → S (f x) (f' y)) : Matches S (f <$> r) (f' <$> r') := by
  intro z hz
  cases r with
  | error e => cases hz
  | ok x =>
      obtain ⟨y, rfl, hxy⟩ := h x rfl
      cases hz
      exact ⟨f' y, rfl, next x y hxy⟩

theorem mapError {r : Except ε α} {r' : Except ε' β} {f : ε → ε₁} {f' : ε' → ε₂}
    (h : Matches R r r') : Matches R (r.mapError f) (r'.mapError f') := by
  intro x hx
  cases r with
  | error e => cases hx
  | ok x =>
      cases hx
      obtain ⟨y, rfl, hxy⟩ := h _ rfl
      exact ⟨y, rfl, hxy⟩

theorem ite {c : Prop} [Decidable c] {r₁ r₂ : Except ε α} {r₁' r₂' : Except ε' β}
    (pos : c → Matches R r₁ r₁') (neg : ¬ c → Matches R r₂ r₂') :
    Matches R (if c then r₁ else r₂) (if c then r₁' else r₂') := by
  split
  · exact pos ‹_›
  · exact neg ‹_›

theorem orFault {fault : OpFault} {o : Option α} {o' : Option β} (h : Option.Rel R o o') :
    Matches R (TensorGraph.orFault fault o) (TensorGraph.orFault fault o') := by
  cases h with
  | some h => exact ok h
  | none => exact error

theorem foldlM {A : δ → γ → Prop} {f : α → δ → Except ε α} {f' : β → γ → Except ε' β} {l : List δ}
    {l' : List γ} (all : List.Forall₂ A l l')
    (step : ∀ x y a b, A a b → R x y → Matches R (f x a) (f' y b)) {x : α} {y : β} (first : R x y) :
    Matches R (l.foldlM f x) (l'.foldlM f' y) := by
  induction all generalizing x y with
  | nil => exact ok first
  | cons hd _ ih =>
      rw [List.foldlM_cons, List.foldlM_cons]
      exact bind (step _ _ _ _ hd first) fun x y h => ih h

theorem mapM {A : δ → γ → Prop} {f : δ → Except ε α} {f' : γ → Except ε' β} {l : List δ}
    {l' : List γ} (all : List.Forall₂ A l l') (each : ∀ a b, A a b → Matches R (f a) (f' b)) :
    Matches (List.Forall₂ R) (l.mapM f) (l'.mapM f') := by
  induction all with
  | nil => exact ok .nil
  | cons hd _ ih =>
      rw [List.mapM_cons, List.mapM_cons]
      exact bind (each _ _ hd) fun x y hxy => bind ih fun xs ys hs => pure (.cons hxy hs)

section

variable {A B : Type} {R : A → B → Prop} {type type' : ElementType}

theorem dispatch {f : (α : Type) → [Element α] → OpResult A}
    {f' : (α : Type) → [Element α] → OpResult B} (same : type = type')
    (each : ∀ (α : Type) [Element α], Matches R (f α) (f' α)) :
    Matches R (type.dispatch f) (type'.dispatch f') := by
  subst same
  unfold ElementType.dispatch
  cases type <;> first | exact each _ | exact error

theorem dispatchNumeric {f : (α : Type) → [Element α] → [Arith α] → OpResult A}
    {f' : (α : Type) → [Element α] → [Arith α] → OpResult B} (same : type = type')
    (each : ∀ (α : Type) [Element α] [Arith α], Matches R (f α) (f' α)) :
    Matches R (type.dispatchNumeric f) (type'.dispatchNumeric f') := by
  subst same
  unfold ElementType.dispatchNumeric
  cases type <;> first | exact each _ | exact error

end

end Matches

namespace Tensor.Likeness

variable {β : Type} {R : Tensor → Tensor → Prop} [Likeness R] {S : β → β → Prop} {a b a' b' : Tensor}

/-- Computing with a tensor without looking at its message. -/
theorem matches_of_blind (h : R a b) (f : Tensor → OpResult β) (refl : ∀ x, S x x)
    (blind : ∀ t source, f { t with source := source } = f t) : Matches S (f a) (f b) := by
  obtain ⟨source, rfl⟩ := exists_source h
  exact .of_eq (blind a source).symm refl

/-- Computing with two tensors without looking at their messages. -/
theorem matches_of_blind₂ (h : R a b) (h' : R a' b') (f : Tensor → Tensor → OpResult β)
    (refl : ∀ x, S x x)
    (blind : ∀ t u source source',
      f { t with source := source } { u with source := source' } = f t u) :
    Matches S (f a a') (f b b') := by
  obtain ⟨source, rfl⟩ := exists_source h
  obtain ⟨source', rfl⟩ := exists_source h'
  exact .of_eq (blind a a' source source').symm refl

end Tensor.Likeness

/-! ## Inputs of operators -/

namespace Inputs

open Tensor (Likeness)

/-- Whether the same inputs are there, and those that are there are related. -/
abbrev Related (R : Tensor → Tensor → Prop) : Inputs → Inputs → Prop :=
  List.Forall₂ (Option.Rel R)

namespace Related

variable {R : Tensor → Tensor → Prop} {xs ys : Inputs}

theorem flip (h : Related R xs ys) : Related (flip R) ys xs := by
  induction h with
  | nil => exact .nil
  | cons first _ ih =>
      refine .cons ?_ ih
      cases first with
      | none => exact .none
      | some h => exact .some h

theorem get? (h : Related R xs ys) (i : Nat) : Option.Rel R (xs.get? i) (ys.get? i) := by
  unfold Inputs.get?
  induction h generalizing i with
  | nil => exact .none
  | cons first _ ih =>
      cases i with
      | zero => exact first
      | succ i => exact ih i

theorem require (h : Related R xs ys) (i : Nat) : Matches R (xs.require i) (ys.require i) :=
  .orFault (h.get? i)

theorem present (h : Related R xs ys) : List.Forall₂ R xs.present ys.present := by
  unfold Inputs.present
  induction h with
  | nil => exact .nil
  | cons first _ ih =>
      cases first with
      | none => exact ih
      | some hab => exact .cons hab ih

/-- What is read from an input without looking at its message. -/
theorem map_get? {β : Type} (h : Related R xs ys) (i : Nat) (f : Option Tensor → β)
    (same : ∀ a b, R a b → f (some a) = f (some b)) : f (xs.get? i) = f (ys.get? i) := by
  have rel := h.get? i
  generalize xs.get? i = x at rel ⊢
  generalize ys.get? i = y at rel ⊢
  cases rel with
  | none => rfl
  | some hab => exact same _ _ hab

variable [Likeness R]

/-- Computing with an input without looking at its message. -/
theorem require_bind {β : Type} {S : β → β → Prop} (h : Related R xs ys) (i : Nat)
    (f : Tensor → OpResult β) (refl : ∀ x, S x x)
    (blind : ∀ t source, f { t with source := source } = f t) :
    Matches S (xs.require i >>= f) (ys.require i >>= f) :=
  (h.require i).bind fun _ _ ht => Likeness.matches_of_blind ht f refl blind

/-- Computing with two inputs without looking at their messages. -/
theorem require_bind₂ {β : Type} {S : β → β → Prop} (h : Related R xs ys) (i j : Nat)
    (f : Tensor → Tensor → OpResult β) (refl : ∀ x, S x x)
    (blind : ∀ t u source source',
      f { t with source := source } { u with source := source' } = f t u) :
    Matches S (xs.require i >>= fun t => xs.require j >>= f t)
      (ys.require i >>= fun t => ys.require j >>= f t) :=
  (h.require i).bind fun _ _ ht => (h.require j).bind fun _ _ hu =>
    Likeness.matches_of_blind₂ ht hu f refl blind

theorem ints? (h : Related R xs ys) (i : Nat) : xs.ints? i = ys.ints? i := by
  have rel := h.get? i
  unfold Inputs.ints?
  generalize xs.get? i = x at rel ⊢
  generalize ys.get? i = y at rel ⊢
  cases rel with
  | none => rfl
  | some hab => simp only [Likeness.intList hab]

theorem requireInts (h : Related R xs ys) (i : Nat) : xs.requireInts i = ys.requireInts i := by
  unfold Inputs.requireInts
  rw [h.ints? i]

end Related
end Inputs

/-! ## Tensors with the same contents -/

/-- Whether two messages store elements alike, and inside the file. -/
structure Message.Tensor.StoresAlike (p q : Message.Tensor) : Prop where
  raw : p.rawData = q.rawData
  strings : p.stringData = q.stringData
  int32s : p.int32Data = q.int32Data
  uint64s : p.uint64Data = q.uint64Data
  inside : p.externalData = [] ∧ q.externalData = []

theorem Message.Tensor.storesAlike_iff {p q : Message.Tensor} :
    (p.rawData = q.rawData && p.stringData = q.stringData && p.int32Data = q.int32Data &&
      p.uint64Data = q.uint64Data && p.externalData.isEmpty && q.externalData.isEmpty) = true ↔
      p.StoresAlike q := by
  simp only [Bool.and_eq_true, decide_eq_true_eq, List.isEmpty_iff]
  constructor
  · rintro ⟨⟨⟨⟨⟨raw, strings⟩, int32s⟩, uint64s⟩, hp⟩, hq⟩
    exact ⟨raw, strings, int32s, uint64s, hp, hq⟩
  · rintro ⟨raw, strings, int32s, uint64s, hp, hq⟩
    exact ⟨⟨⟨⟨⟨raw, strings⟩, int32s⟩, uint64s⟩, hp⟩, hq⟩

namespace Elements

theorem exists_eq_opaqueOf {e : Elements} (h : e.isEvaluable = false) : ∃ type, e = .opaqueOf type := by
  cases e <;> first | exact ⟨_, rfl⟩ | cases h

end Elements

namespace Tensor

variable {a b c : Tensor}

/-- Tensors with the same contents have the same shape and the same elements.  Elements that are not
available are stored alike. -/
theorem sameContents_iff :
    a.sameContents b = true ↔ a.shape = b.shape ∧ a.elements = b.elements ∧
      (a.isEvaluable = false →
        ∃ p q, a.source = some p ∧ b.source = some q ∧ p.StoresAlike q) := by
  unfold sameContents isEvaluable elementType
  rw [Bool.and_eq_true, Bool.and_eq_true, decide_eq_true_iff, decide_eq_true_iff]
  split
  · rename_i type type' ha hb
    rw [ha, hb]
    split
    · rename_i p q hp hq
      rw [Message.Tensor.storesAlike_iff, hp, hq]
      simp [Elements.elementType, Elements.isEvaluable, and_left_comm, and_assoc]
    · rename_i none
      refine ⟨fun h => (by cases h.2), fun ⟨_, _, h⟩ => ?_⟩
      obtain ⟨p, q, hp, hq, -⟩ := h rfl
      exact (none p q hp hq).elim
  · rename_i none
    rw [decide_eq_true_iff]
    refine ⟨fun ⟨⟨_, hshape⟩, helements⟩ => ⟨hshape, helements, fun h => ?_⟩,
      fun ⟨hshape, helements, _⟩ => ⟨⟨congrArg Elements.elementType helements, hshape⟩, helements⟩⟩
    obtain ⟨type, htype⟩ := Elements.exists_eq_opaqueOf h
    exact (none type type htype (helements ▸ htype)).elim

theorem sameContents_symm (h : a.sameContents b = true) : b.sameContents a = true := by
  obtain ⟨hshape, helements, stored⟩ := sameContents_iff.1 h
  refine sameContents_iff.2 ⟨hshape.symm, helements.symm, fun hb => ?_⟩
  unfold isEvaluable at stored hb
  rw [helements] at stored
  obtain ⟨p, q, hp, hq, alike⟩ := stored hb
  exact ⟨q, p, hq, hp, alike.raw.symm, alike.strings.symm, alike.int32s.symm, alike.uint64s.symm,
    alike.inside.symm⟩

theorem sameContents_trans (h : a.sameContents b = true) (h' : b.sameContents c = true) :
    a.sameContents c = true := by
  obtain ⟨hshape, helements, stored⟩ := sameContents_iff.1 h
  obtain ⟨hshape', helements', stored'⟩ := sameContents_iff.1 h'
  refine sameContents_iff.2 ⟨hshape.trans hshape', helements.trans helements', fun ha => ?_⟩
  unfold isEvaluable at stored stored' ha
  obtain ⟨p, q, hp, hq, alike⟩ := stored ha
  obtain ⟨q', r, hq', hr, alike'⟩ := stored' (helements ▸ ha)
  cases hq.symm.trans hq'
  exact ⟨p, r, hp, hr, alike.raw.trans alike'.raw, alike.strings.trans alike'.strings,
    alike.int32s.trans alike'.int32s, alike.uint64s.trans alike'.uint64s, alike.inside.1,
    alike'.inside.2⟩

/-- Whether two tensors are one, or have the same contents. -/
def Interchangeable (a b : Tensor) : Prop := a = b ∨ a.sameContents b = true

instance : Likeness Interchangeable := by
  refine ⟨fun _ => Or.inl rfl, fun {a b} h => ?_⟩
  rcases h with rfl | h
  · exact ⟨a.source, rfl⟩
  · obtain ⟨hshape, helements, -⟩ := sameContents_iff.1 h
    refine ⟨b.source, ?_⟩
    rw [hshape, helements]

theorem Interchangeable.trans (h : Interchangeable a b) (h' : Interchangeable b c) :
    Interchangeable a c := by
  rcases h with rfl | h
  · exact h'
  · rcases h' with rfl | h'
    · exact Or.inr h
    · exact Or.inr (sameContents_trans h h')

end Tensor

end TensorGraph
