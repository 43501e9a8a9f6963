/-!
# Scopes

A scope gives something to each of some names, such as a tensor to each value of a graph.  Of
several bindings of a name the one that was added last counts.
-/

namespace TensorGraph

/-- Named things, with the binding that was added last in front. -/
abbrev Scope (α : Type) := List (String × α)

namespace Scope

variable {α : Type}

/-- What a name stands for. -/
def get? (s : Scope α) (name : String) : Option α := s.lookup name

/-- Add a binding. -/
def bind (s : Scope α) (name : String) (x : α) : Scope α := (name, x) :: s

/-- A scope with several bindings, of which the last one of a name counts. -/
def ofBindings (bindings : List (String × α)) : Scope α := bindings.reverse

/-- Look in the inner scope first. -/
def inside (inner outer : Scope α) : Scope α := inner ++ outer

def contains (s : Scope α) (name : String) : Bool := (s.get? name).isSome

@[simp] theorem get?_nil (name : String) : get? ([] : Scope α) name = none := rfl

theorem get?_bind (s : Scope α) (name other : String) (x : α) :
    (s.bind name x).get? other = if other = name then some x else s.get? other := by
  unfold get? bind
  rw [List.lookup_cons]
  by_cases h : other = name
  · simp [h]
  · have : (other == name) = false := by simpa using h
    simp [h, this]

theorem get?_inside (inner outer : Scope α) (name : String) :
    (inner.inside outer).get? name = (inner.get? name).or (outer.get? name) := by
  induction inner with
  | nil => rfl
  | cons b rest ih =>
    unfold get? inside at *
    rw [List.cons_append, List.lookup_cons, List.lookup_cons]
    cases name == b.1 with
    | true => rfl
    | false => exact ih

/-- The names, each once. -/
def names (s : Scope α) : List String := (s.map Prod.fst).eraseDups

end Scope
end TensorGraph
