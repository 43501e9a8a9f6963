import TensorGraph.FreshName
import TensorGraph.Graph.Basic

/-!
# Graphs from expressions

A graph can be written as expressions over its inputs.  Expressions are numbered in the order in
which they are made, and refer to earlier ones by number, so an expression that is used twice is
shared: its node is emitted once.  `Expressions.graph` collects the nodes that some outputs need,
operands first, and gives fresh names to all values and nodes.
-/

namespace TensorGraph

/-- One expression.  Operands are the numbers of earlier expressions. -/
inductive Expression where
  /-- A graph input. -/
  | value (name : String) (type : Option ElementType) (shape : Option (List Dim))
  | constant (t : Tensor)
  /-- An operator with its operands; an omitted operand is `none`. -/
  | operator (opType : String) (attributes : List (String × AttributeValue))
      (operands : List (Option Nat)) (outputs : Nat)
  /-- One output of an operator. -/
  | output (operator index : Nat)

/-- Expressions by number. -/
abbrev Expressions := Array Expression

/-- Why an expression cannot be made or a graph cannot be built. -/
inductive ExpressionFault where
  | outputOfNonOperator
  | noSuchOutput (index outputs : Nat)
  | unknownInput (name : String)
  deriving DecidableEq, Repr

namespace ExpressionFault

def message : ExpressionFault → String
  | outputOfNonOperator => "can only call `output` on an operator expression"
  | noSuchOutput index outputs =>
    "can't get output " ++ toString index ++ " for operator with " ++ toString outputs ++ " outputs"
  | unknownInput name => "input \"" ++ name ++ "\" passed to `build_graph` not found"

end ExpressionFault

namespace Expressions

/-- Add an expression and return its number. -/
def push (es : Expressions) (e : Expression) : Expressions × Nat := (Array.push es e, es.size)

/-- Add an operator with one output. -/
def apply (es : Expressions) (opType : String) (operands : List Nat) : Expressions × Nat :=
  es.push (.operator opType [] (operands.map some) 1)

/-- Add an output of an operator. -/
def pushOutput (es : Expressions) (operator index : Nat) :
    Except ExpressionFault (Expressions × Nat) :=
  match es[operator]? with
  | some (.operator _ _ _ outputs) =>
    if index < outputs then .ok (es.push (.output operator index))
    else .error (.noSuchOutput index outputs)
  | _ => .error .outputOfNonOperator

end Expressions

/-- The state of building a graph. -/
structure GraphBuilder where
  graph : Graph := {}
  /-- The inputs that were met, the latest first. -/
  values : List ValueInfo := []
  /-- The names of the outputs of each expression that was emitted. -/
  emitted : List (Nat × List String) := []
  used : List String := []

namespace GraphBuilder

/-- Take a fresh name. -/
def name (b : GraphBuilder) (stem : String) : GraphBuilder × String :=
  let fresh := freshName b.used stem
  ({ b with used := fresh :: b.used }, fresh)

/-- Take fresh names with one stem. -/
def names (b : GraphBuilder) (stem : String) : Nat → GraphBuilder × List String
  | 0 => (b, [])
  | count + 1 =>
    let (b, first) := b.name stem
    let (b, rest) := b.names stem count
    (b, first :: rest)

/-- The input with a name. -/
def value? (b : GraphBuilder) (name : String) : Option ValueInfo :=
  b.values.find? fun v => v.name == name

/-- Remember the outputs of an expression. -/
def remember (b : GraphBuilder) (number : Nat) (outputs : List String) :
    GraphBuilder × List String :=
  ({ b with emitted := (number, outputs) :: b.emitted }, outputs)

/-- Emit an expression, unless that was done already, and return the names of its outputs.  Operands
with a number that is not smaller are taken as omitted. -/
def emit (es : Expressions) (b : GraphBuilder) (number : Nat) : GraphBuilder × List String :=
  match b.emitted.find? fun p => p.1 == number with
  | some p => (b, p.2)
  | none =>
    match es[number]? with
    | none => (b, [])
    | some (.value name type shape) =>
      let b := { b with values := { name := name, type := type, shape := shape } :: b.values }
      b.remember number [name]
    | some (.constant t) =>
      let (b, name) := b.name "const"
      { b with graph := b.graph.setInitializer name t }.remember number [name]
    | some (.operator opType attributes operands outputs) =>
      let (b, inputs) := operands.foldl (fun (b, inputs) operand =>
        match operand with
        | some i =>
          if _earlier : i < number then
            let (b, outputs) := emit es b i
            (b, inputs ++ [outputs.headD ""])
          else (b, inputs ++ [""])
        | none => (b, inputs ++ [""])) (b, [])
      let (b, outputs) := b.names (opType ++ "_out") outputs
      let (b, name) := b.name opType
      let node : Node :=
        { name := some name, opType := opType, inputs := inputs, outputs := outputs }
      let node := attributes.foldl (fun n (name, value) => n.setAttribute name value) node
      { b with graph := b.graph.addNode node }.remember number outputs
    | some (.output operator index) =>
      if _earlier : operator < number then
        let (b, outputs) := emit es b operator
        b.remember number [outputs.getD index ""]
      else (b, [])
termination_by number

/-- Emit several expressions and return the names of their outputs, each once. -/
def emitAll (es : Expressions) (b : GraphBuilder) (numbers : List Nat) :
    GraphBuilder × List String :=
  let (b, names) := numbers.foldl (fun (b, names) i =>
    let (b, outputs) := emit es b i
    (b, names ++ outputs)) (b, [])
  (b, names.eraseDups)

/-- The graph with the given inputs and outputs. -/
def finish (b : GraphBuilder) (inputs : List ValueInfo) (outputs : List String) : Graph :=
  { b.graph with
    inputs := inputs
    outputs := outputs.map fun name => { name := name } }

end GraphBuilder

namespace Expressions

/-- The graph of one expression.  Every name listed as an input must be that of an input that the
expression uses. -/
def buildGraph (es : Expressions) (root : Nat) (inputs : List String) :
    Except ExpressionFault Graph := do
  let (b, outputs) := GraphBuilder.emit es {} root
  let inputs ← inputs.mapM fun name =>
    match b.value? name with
    | some v => .ok v
    | none => .error (.unknownInput name)
  return b.finish inputs outputs

/-- The graph of several outputs. -/
def makeGraph (es : Expressions) (inputs outputs : List Nat) : Graph :=
  let (b, outputs) := GraphBuilder.emitAll es {} outputs
  let (b, inputs) := GraphBuilder.emitAll es b inputs
  b.finish (inputs.filterMap b.value?) outputs

end Expressions
end TensorGraph
