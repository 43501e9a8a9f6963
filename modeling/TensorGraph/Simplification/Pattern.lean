import TensorGraph.Graph.Basic

/-!
# Patterns

A pattern describes how a value is computed: by an operator from values that match patterns in
turn, as a constant with given elements, or in any way, under a name.  Operands of commutative
operators match in either order.  A match binds the names of a pattern to values and nodes.
-/

namespace TensorGraph

/-- A description of how a value is computed. -/
inductive Pattern where
  /-- The first output of an operator.  The node is bound to the key. -/
  | operator (opType : String) (inputs : List Pattern) (key : Option String)
  /-- A constant all of whose elements are equal to a number. -/
  | constant (value : Binary64)
  /-- Any value, or any constant.  All symbols of one name stand for the same value. -/
  | symbol (name : String) (isConstant : Bool)

namespace Pattern

def binary (opType : String) (a b : Pattern) : Pattern := operator opType [a, b] none

/-- A number as a constant. -/
def number (value : Binary64) : Pattern := constant value

/-- A symbol for any value. -/
def any (name : String) : Pattern := symbol name false

/-- A symbol for any constant. -/
def anyConstant (name : String) : Pattern := symbol name true

end Pattern

/-- What a name of a pattern stands for. -/
inductive Binding where
  | value (name : String)
  | node (index : Nat)
  deriving DecidableEq, Repr

/-- The bindings of a match, the first ones first, and how many there were when operands were tried
in an order that may have to be given up. -/
structure MatchState where
  bindings : List (String × Binding) := []
  marks : List Nat := []
  deriving DecidableEq, Repr

namespace MatchState

/-- What a name stands for. -/
def get? (s : MatchState) (name : String) : Option Binding := s.bindings.lookup name

/-- The value that a name stands for. -/
def value? (s : MatchState) (name : String) : Option String :=
  match s.get? name with
  | some (.value v) => some v
  | _ => none

/-- The node that a name stands for. -/
def node? (s : MatchState) (name : String) : Option Nat :=
  match s.get? name with
  | some (.node i) => some i
  | _ => none

def add (s : MatchState) (name : String) (b : Binding) : MatchState :=
  { s with bindings := s.bindings ++ [(name, b)] }

/-- Remember the bindings. -/
def mark (s : MatchState) : MatchState := { s with marks := s.bindings.length :: s.marks }

/-- Go back to the bindings that were remembered last. -/
def revert (s : MatchState) : MatchState :=
  match s.marks with
  | [] => s
  | count :: rest => { bindings := s.bindings.take count, marks := rest }

end MatchState

/-- What patterns are matched against: which node computes a value, and which values are constants.
-/
structure Computations where
  producer? : String → Option (Nat × Node)
  constant? : String → Option Tensor

/-- Whether the operands of a binary operator may be exchanged. -/
def isCommutative (opType : String) : Bool :=
  ["Add", "Mul", "Max", "Min", "Sum", "Mean", "And", "Or", "Xor", "Equal"].contains opType

/-- Whether a tensor has elements, and all of them are equal to a number. -/
def Tensor.isFilledWith (t : Tensor) (value : Binary64) : Bool :=
  t.size ≠ 0 &&
    match t.elements.toBinary64s? with
    | some xs => xs.all fun x => x.eq value
    | none => false

namespace Pattern

/-- The inputs of a node up to the last one that is not omitted. -/
def operands (n : Node) : List String := (n.inputs.reverse.dropWhile (· = "")).reverse

/-- Match a symbol. -/
def testSymbol (c : Computations) (name : String) (isConstant : Bool) (value : String)
    (s : MatchState) : Bool × MatchState :=
  if isConstant && (c.constant? value).isNone then (false, s)
  else
    match s.get? name with
    | some b => (b = .value value, s)
    | none => (true, s.add name (.value value))

/-- Bind the key of an operator, if it has one and the operands match. -/
def bindKey (key : Option String) (index : Nat) : Bool × MatchState → Bool × MatchState
  | (false, s) => (false, s)
  | (true, s) =>
    match key with
    | some key => (true, s.add key (.node index))
    | none => (true, s)

mutual
/-- Match a pattern against a value. -/
def test (c : Computations) : Pattern → String → MatchState → Bool × MatchState
  | .operator opType inputs key, value, s =>
    match c.producer? value with
    | none => (false, s)
    | some (index, n) =>
      if n.opType ≠ opType || !n.isDefaultDomain || inputs.length ≠ (operands n).length then
        (false, s)
      else if isCommutative opType && inputs.length = 2 then
        bindKey key index (testEither c inputs (operands n) s)
      else bindKey key index (testAll c inputs (operands n) s)
  | .constant number, value, s =>
    (((c.constant? value).map fun t => t.isFilledWith number).getD false, s)
  | .symbol name isConstant, value, s => testSymbol c name isConstant value s

/-- Match patterns against operands, none of which may be omitted. -/
def testAll (c : Computations) : List Pattern → List String → MatchState → Bool × MatchState
  | p :: ps, value :: values, s =>
    if value = "" then (false, s)
    else
      match test c p value s with
      | (true, s) => testAll c ps values s
      | (false, s) => (false, s)
  | _, _, s => (true, s)

/-- Match two patterns against two operands in either order. -/
def testEither (c : Computations) : List Pattern → List String → MatchState → Bool × MatchState
  | [p, q], [a, b], s =>
    let first :=
      match test c p a s.mark with
      | (true, s) => test c q b s
      | (false, s) => (false, s)
    match first with
    | (true, s) => (true, s)
    | (false, s) =>
      match test c q a s.revert with
      | (true, s) => test c p b s
      | (false, s) => (false, s)
  | _, _, s => (false, s)
end

/-- The bindings of a match of a pattern with a value. -/
def matches? (p : Pattern) (c : Computations) (value : String) : Option MatchState :=
  match p.test c value {} with
  | (true, s) => some s
  | (false, _) => none

end Pattern
end TensorGraph
