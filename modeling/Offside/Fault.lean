import Offside.Node.Document
import Offside.Text.Utf8

/-!
Conditions that the language has no error of its own for. They end a run at once; only those
that concern the range or the form of a value become an error of the builtin that met them.
-/

namespace Offside

inductive SystemError where
  | noEntry
  | notADirectory
  | isADirectory
  | alreadyThere
  | notEmpty
  | invalidArgument
  | nameTooLong
  | busy
  /-- A refusal for which the system gives no reason. -/
  | unexplained
  /-- A zero character in a path, which the system is never asked about. -/
  | nullCharacter
  deriving DecidableEq, Repr

def SystemError.number : SystemError → Nat
  | .noEntry => 2
  | .busy => 16
  | .alreadyThere => 17
  | .notADirectory => 20
  | .isADirectory => 21
  | .invalidArgument => 22
  | .nameTooLong => 36
  | .notEmpty => 39
  | .unexplained | .nullCharacter => 0

def SystemError.text : SystemError → String
  | .noEntry => "No such file or directory"
  | .busy => "Device or resource busy"
  | .alreadyThere => "File exists"
  | .notADirectory => "Not a directory"
  | .isADirectory => "Is a directory"
  | .invalidArgument => "Invalid argument"
  | .nameTooLong => "File name too long"
  | .notEmpty => "Directory not empty"
  | .unexplained => "None"
  | .nullCharacter => "embedded null byte"

inductive Fault where
  | invalidInteger (text : String)
  | invalidFloat (text : String)
  | noRemainder
  | integerBeyondFloat
  | integerBeyondIndex
  | roundedBeyondFloat
  | integerBeyondLength
  /-- A call depth for which there are not enough stack frames. -/
  | depthBeyondWord
  | outOfMemory
  | nullByte
  | variableName
  | longInteger (digits : Nat)
  /-- A literal that a grammar rule cannot read. -/
  | unreadable (rule text : String)
  /-- A tree whose parts are not those of its grammar rule. -/
  | misshapen
  | system (error : SystemError) (path : Option String)
  | missingPart (owner part : String)
  | notIterable (owner : String)
  | notSearchable (owner : String)
  | notCallable (owner : String)
  /-- An argument that a builtin reads and was not given. -/
  | missingArgument
  /-- A datum that cannot be a name. -/
  | unhashable (type : String)
  /-- A part of a list of names that is no text. -/
  | notAText (index : Nat) (type : String)
  | document (error : DocumentError)
  | json (error : JsonError)
  | encoding (error : Text.Utf8Error)
  /-- A text that a file cannot hold. -/
  | surrogates (error : Text.SurrogateError)
  deriving DecidableEq, Repr

namespace Fault

def message : Fault → String
  | invalidInteger text => "invalid Integer literal " ++ Text.quoted text
  | invalidFloat text => "could not convert string to float: " ++ Text.quoted text
  | noRemainder => "math domain error"
  | integerBeyondFloat => "int too large to convert to float"
  | integerBeyondIndex => "Python int too large to convert to C ssize_t"
  | roundedBeyondFloat => "rounded value too large to represent"
  | integerBeyondLength => "cannot fit 'int' into an index-sized integer"
  | depthBeyondWord => "Python int too large to convert to C int"
  | outOfMemory => ""
  | nullByte => "embedded null byte"
  | variableName => "illegal environment variable name"
  | longInteger digits => (JsonFault.longInteger digits).message
  | unreadable rule text =>
    "Error trying to process rule \"" ++ rule ++ "\":\n\ninvalid Integer literal " ++
      Text.quoted text
  | misshapen => "Error trying to process rule"
  | system error path =>
    "[Errno " ++ toString error.number ++ "] " ++ error.text ++
      (match path with
       | some p => ": " ++ Text.quoted p
       | none => "")
  | missingPart owner part => "'" ++ owner ++ "' object has no attribute '" ++ part ++ "'"
  | notIterable owner => "'" ++ owner ++ "' object is not iterable"
  | notSearchable owner => "argument of type '" ++ owner ++ "' is not iterable"
  | notCallable owner => "'" ++ owner ++ "' object is not callable"
  | missingArgument => "list index out of range"
  | unhashable type => "unhashable type: '" ++ type ++ "'"
  | notAText index type =>
    "sequence item " ++ toString index ++ ": expected str instance, " ++ type ++ " found"
  | document error => error.message
  | json error => error.text
  | encoding error => error.message
  | surrogates error => error.message

/-- Whether a builtin reports the condition as its own failure. -/
def concernsValue : Fault → Bool
  | invalidInteger _ | invalidFloat _ | noRemainder | integerBeyondFloat | integerBeyondIndex
  | integerBeyondLength | roundedBeyondFloat | nullByte | variableName | surrogates _ => true
  | _ => false

end Fault

end Offside
