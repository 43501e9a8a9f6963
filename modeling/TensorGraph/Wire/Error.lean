/-!
# Faults of encoded messages

A message that cannot be read fails with one fault, together with the kind of message and the
number of the field where it was found.  The wording of every fault is in `DecodeError.message`.
-/

namespace TensorGraph
namespace Wire

/-- An encoded message is a finite sequence of bytes. -/
abbrev Bytes := List UInt8

/-- What is wrong with an encoded message. -/
inductive Fault where
  | invalidVarint
  | endOfMessage
  | typeMismatch
  | lengthMismatch
  | wireType
  | text
  deriving DecidableEq, Repr

namespace Fault

/-- The words that describe a fault. -/
def message : Fault → String
  | invalidVarint => "invalid varint"
  | endOfMessage => "unexpected end of message"
  | typeMismatch => "field type mismatch"
  | lengthMismatch => "field length mismatch"
  | wireType => "invalid wire type"
  | text => "invalid UTF-8 in string"

end Fault

/-- A fault and the place where it was found. -/
structure DecodeError where
  fault : Fault
  /-- The kind of message that was being read. -/
  context : Option String := none
  /-- The number of the field that was being read. -/
  field : Option Nat := none
  deriving DecidableEq, Repr

namespace DecodeError

/-- Say where an error was found.  The innermost kind of message is kept: an error that has one
already is unchanged. -/
def within (e : DecodeError) (context : Option String) (field : Option Nat) : DecodeError :=
  match e.context with
  | some _ => e
  | none => { e with context := context, field := field }

/-- The text of an error. -/
def message (e : DecodeError) : String :=
  match e.context, e.field with
  | some c, some n => c ++ " field " ++ toString n ++ ": " ++ e.fault.message
  | some c, none => c ++ ": " ++ e.fault.message
  | none, some n => "field " ++ toString n ++ ": " ++ e.fault.message
  | none, none => e.fault.message

end DecodeError

end Wire
end TensorGraph
