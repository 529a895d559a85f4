import Offside.Error

/-!
Failures of builtins. A failure is a cause with its wording; the evaluator reports it under the
name of the builtin.
-/

namespace Offside

/-- What a builtin was doing when the file system refused. -/
inductive Deed where
  | reading
  | writing
  | deleting
  | moving
  | copying
  | listing
  | creating
  | entering
  | removing
  | makingDirectory
  | removingDirectory
  deriving DecidableEq, Repr

def Deed.text : Deed → String
  | reading => "error reading"
  | writing => "error writing"
  | deleting => "error deleting"
  | moving => "error renaming"
  | copying => "error copying"
  | listing => "error listing"
  | creating => "error creating"
  | entering => "cannot change directory to"
  | removing => "cannot remove"
  | makingDirectory => "cannot create directory"
  | removingDirectory => "cannot remove directory"

/-- A limit on the number of arguments that a call missed. -/
structure ArityRange where
  least : Int
  most : Int
  deriving DecidableEq, Repr

def ArityRange.has (r : ArityRange) (n : Nat) : Bool := r.least ≤ n && n ≤ r.most

def ArityRange.text (r : ArityRange) : String :=
  if r.most = r.least then Number.numeral r.least
  else Number.numeral r.least ++ " to " ++ Number.numeral r.most

inductive Failure where
  | arity (expected : ArityRange) (got : Nat)
  | wrongKind (builtin what wanted : String) (got : Kind)
  | operation (cause : Cause)
  | noOrder (builtin : String) (left right : Kind)
  | noArgument (builtin : String)
  | emptyList (builtin : String)
  | noLength (got : Kind)
  | notAnInteger (text : String)
  | noIntegerText (text : String)
  | noInteger (got : Kind)
  | tooLargeForFloat
  | noFloatText (text : String)
  | noFloat (got : Kind)
  | zeroStep
  | noList (got : Kind)
  | popFromEmpty
  | codePoint (code : Int)
  | notOneCharacter (length : Nat)
  | notRoundable (text : String)
  | emptySeparator
  | notAString (builtin : String) (got : Kind)
  | notInList (text : String)
  | keyMissing (text : String)
  | fileMissing (path : String)
  | undecodable (path : String)
  | refused (deed : Deed) (path : String) (error : SystemError)
  | mathDomain
  | mathRange
  | badJson (error : JsonError)
  | selfReference
  | keyNotString (got : Kind)
  | notSerializable (got : Kind)
  | longInteger
  | delimiterLength (builtin : String)
  | csvLineBreak
  | csvFieldTooLong
  | rowNotMapping (got : Kind)
  | rowNotContainer (got : Kind)
  deriving DecidableEq, Repr

namespace Failure

def message : Failure → String
  | arity expected got => "expected " ++ expected.text ++ " arguments, got " ++ toString got
  | wrongKind builtin what wanted got =>
    builtin ++ " " ++ what ++ " must be " ++ wanted ++ ", got " ++ got.name
  | operation cause => cause.message
  | noOrder builtin left right =>
    builtin ++ " cannot order " ++ left.name ++ " and " ++ right.name
  | noArgument builtin => builtin ++ " expects at least 1 argument"
  | emptyList builtin => builtin ++ " of an empty List"
  | noLength got => "object of kind " ++ got.name ++ " has no len"
  | notAnInteger text => "cannot convert " ++ text ++ " to Integer"
  | noIntegerText text => "cannot parse Integer from " ++ text
  | noInteger got => "cannot convert " ++ got.name ++ " to Integer"
  | tooLargeForFloat => "Integer too large to convert to Float"
  | noFloatText text => "cannot parse Float from " ++ text
  | noFloat got => "cannot convert " ++ got.name ++ " to Float"
  | zeroStep => "range step must not be zero"
  | noList got => "cannot convert " ++ got.name ++ " to List"
  | popFromEmpty => "pop from empty List"
  | codePoint code => "code point " ++ Number.numeral code ++ " out of range"
  | notOneCharacter length =>
    "ord expects a single character, got a String of length " ++ toString length
  | notRoundable text => "cannot round " ++ text ++ " to Integer"
  | emptySeparator => "empty separator"
  | notAString builtin got => builtin ++ " expects a List of String, found " ++ got.name
  | notInList text => text ++ " not in List"
  | keyMissing text => "key " ++ text ++ " not found"
  | fileMissing path => "file not found: " ++ path
  | undecodable path => "cannot decode " ++ path ++ " as utf-8"
  | refused deed path error => deed.text ++ " " ++ path ++ ": " ++ error.text
  | mathDomain => "math domain error"
  | mathRange => "math range error"
  | badJson error =>
    "invalid JSON: " ++ error.fault.message ++ " at line " ++ toString error.line ++
      " column " ++ toString error.column
  | selfReference => "cannot stringify a self-referencing value"
  | keyNotString got => "JSON object keys must be String, got " ++ got.name
  | notSerializable got => got.name ++ " is not JSON serializable"
  | longInteger =>
    "Exceeds the limit (4300 digits) for integer string conversion; " ++
      "use sys.set_int_max_str_digits() to increase the limit"
  | delimiterLength builtin => builtin ++ " delimiter must be a single character"
  | csvLineBreak =>
    "invalid CSV: new-line character seen in unquoted field - " ++
      "do you need to open the file in universal-newline mode?"
  | csvFieldTooLong => "invalid CSV: field larger than field limit (131072)"
  | rowNotMapping got => "csv_stringify rows must all be Mappings, found " ++ got.name
  | rowNotContainer got => "csv_stringify rows must be Lists or Mappings, found " ++ got.name

end Failure

end Offside
