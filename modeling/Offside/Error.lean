import Offside.Fault
import Offside.Value

/-!
Runtime errors of the language. A cause says what went wrong; its kind and wording are derived
from it. The place is filled in by the evaluator from the innermost node around it that has a line.
-/

namespace Offside

/-- What a value is held against when it has to be a Boolean. -/
inductive Test where
  | ifCondition
  | whileCondition
  | operand (op : String)
  deriving DecidableEq, Repr

def Test.text : Test → String
  | ifCondition => "if condition"
  | whileCondition => "while condition"
  | operand op => "operand of '" ++ op ++ "'"

inductive Cause where
  | unsupportedOperands (op : String) (left right : Kind)
  | notBoolean (test : Test) (got : Kind)
  | memberOfText (got : Kind)
  | noMembers (container : Kind)
  | unknownOperator (op : String)
  | notNegatable (got : Kind)
  | unknownUnaryOperator (op : String)
  | unhashable (key : Kind)
  | indexKind (sequence : String) (got : Kind)
  | notIndexable (target : Kind)
  | noItemAssignment (target : Kind)
  | noItemDeletion (target : Kind)
  | notIterable (got : Kind)
  | notCallable (got : Kind)
  | noMember (owner : Kind) (shown : String)
  | badTarget
  | notAStatement (node : String)
  | notAnExpression (node : String)
  | undefinedName (name : String)
  | unknownBuiltin (name : String)
  | divisionByZero
  | moduloByZero
  | resultTooLarge (op : String)
  | indexOutOfRange (sequence : String) (index : Int)
  | keyNotFound (key : String)
  | arityMismatch (function : String) (expected got : Nat)
  | tooDeep (limit : Int) (function : String)
  | builtinFailed (builtin message : String)
  deriving DecidableEq, Repr

namespace Cause

def kind : Cause → String
  | undefinedName _ | unknownBuiltin _ => "NameError"
  | divisionByZero | moduloByZero => "ZeroDivisionError"
  | resultTooLarge _ => "OverflowError"
  | indexOutOfRange .. => "IndexError"
  | keyNotFound _ => "KeyError"
  | arityMismatch .. => "ArityMismatch"
  | tooDeep .. => "RecursionLimitExceeded"
  | builtinFailed .. => "BuiltinError"
  | _ => "TypeError"

def message : Cause → String
  | unsupportedOperands op left right =>
    "unsupported operand kinds for " ++ op ++ ": " ++ left.name ++ " and " ++ right.name
  | notBoolean test got => test.text ++ " must be Boolean, got " ++ got.name
  | memberOfText got => "'in <String>' requires a String on the left, got " ++ got.name
  | noMembers container => container.name ++ " does not support 'in'"
  | unknownOperator op => "unknown operator " ++ op
  | notNegatable got => "bad operand kind for unary -: " ++ got.name
  | unknownUnaryOperator op => "unknown unary operator " ++ op
  | unhashable key => "unhashable mapping key kind " ++ key.name
  | indexKind sequence got => sequence ++ " indices must be Integer, got " ++ got.name
  | notIndexable target => target.name ++ " is not indexable"
  | noItemAssignment target => target.name ++ " does not support item assignment"
  | noItemDeletion target => target.name ++ " does not support item deletion"
  | notIterable got => got.name ++ " is not iterable"
  | notCallable got => got.name ++ " is not callable"
  | noMember owner shown => owner.name ++ " has no attribute " ++ shown
  | badTarget => "invalid assignment target"
  | notAStatement node => "cannot execute node type " ++ node
  | notAnExpression node => "cannot evaluate node type " ++ node
  | undefinedName name => "undefined variable " ++ name
  | unknownBuiltin name => "unknown builtin " ++ name
  | divisionByZero => "division by zero"
  | moduloByZero => "modulo by zero"
  | resultTooLarge op => "result of " ++ op ++ " is too large for a Float"
  | indexOutOfRange sequence index =>
    sequence ++ " index " ++ Number.numeral index ++ " out of range"
  | keyNotFound key => "key " ++ key ++ " not found"
  | arityMismatch function expected got =>
    function ++ " expects " ++ toString expected ++ " arguments, got " ++ toString got
  | tooDeep limit function =>
    "maximum call depth " ++ Number.numeral limit ++ " exceeded in " ++ function
  | builtinFailed builtin message => builtin ++ ": " ++ message

def builtin? : Cause → Option String
  | builtinFailed builtin _ => some builtin
  | _ => none

end Cause

structure RuntimeError where
  cause : Cause
  place : Place := .unknown

namespace RuntimeError

/-- Fills in a missing place. -/
def locate (e : RuntimeError) (p : Place) : RuntimeError :=
  if e.place.isKnown then e else { e with place := p }

def text (e : RuntimeError) : String :=
  let body := e.cause.kind ++ ": " ++ e.cause.message
  if e.place.isKnown then e.place.text ++ ": " ++ body else body

end RuntimeError

inductive Trouble where
  | cause (c : Cause)
  | fault (f : Fault)
  deriving DecidableEq, Repr

end Offside
