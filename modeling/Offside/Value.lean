import Offside.Node.Document

/-!
Runtime values. Numbers, Booleans, Strings and none are data; Lists and Mappings are references
into a heap, so that a change through one name is seen through every other. A function refers to
its closure by number and keeps its name for display.
-/

namespace Offside

/-- What a value is. A literal that a document supplies may lie outside the language; such a
value is known by the name of its type only. -/
inductive Kind where
  | integer
  | float
  | boolean
  | string
  | none
  | list
  | mapping
  | function
  | nativeFunction
  | foreign (type : String)
  deriving DecidableEq, Repr

def Kind.name : Kind → String
  | integer => "Integer"
  | float => "Float"
  | boolean => "Boolean"
  | string => "String"
  | none => "None"
  | list => "List"
  | mapping => "Mapping"
  | function => "Function"
  | nativeFunction => "NativeFunction"
  | foreign type => type

/-- Which object a NaN is: the constant of mathematics, the one of documents, or one that a run has
made. A NaN equals no number, but a Mapping finds the object that it has for a key. -/
inductive NaN where
  | constant
  | document
  | made (n : Nat)
  deriving DecidableEq, Repr

/-- A NaN is a value of its own; a `float` that is no number is one that has yet to be told from the
others. -/
inductive Value where
  | integer (n : Int)
  | float (x : Float)
  | nan (object : NaN)
  | boolean (b : Bool)
  | string (s : String)
  | none
  | list (id : Nat)
  | mapping (id : Nat)
  | function (id : Nat) (name : String)
  | native (name : String)
  | bound (name : String) (receiver : Value)
  | foreign (datum : Json)
  deriving Inhabited

namespace Value

def kind : Value → Kind
  | integer _ => .integer
  | float _ | nan _ => .float
  | boolean _ => .boolean
  | string _ => .string
  | none => .none
  | list _ => .list
  | mapping _ => .mapping
  | function .. => .function
  | native _ => .nativeFunction
  | bound .. => .nativeFunction
  | foreign datum => .foreign datum.typeName

def typeName : Value → String
  | integer _ => "int"
  | float _ | nan _ => "float"
  | boolean _ => "bool"
  | string _ => "str"
  | none => "NoneVal"
  | list _ => "ListVal"
  | mapping _ => "MapVal"
  | function .. => "FunctionVal"
  | native _ | bound .. => "NativeFunction"
  | foreign datum => datum.typeName

def isNumber : Value → Bool
  | integer _ | float _ | nan _ => true
  | _ => false

def isInteger : Value → Bool
  | integer _ => true
  | _ => false

def isHashable : Value → Bool
  | integer _ | float _ | nan _ | boolean _ | string _ | none => true
  | _ => false

/-- The value without the object that a NaN is. -/
def unnamed : Value → Value
  | nan _ => float Number.notANumber
  | v => v

/-- Equality of keys: the kind counts, so that `1`, `1.0` and `true` are three keys. A NaN is the
same key as itself. -/
def sameKey : Value → Value → Bool
  | integer a, integer b => a == b
  | float a, float b => a == b || (a.isNaN && b.isNaN)
  | nan a, nan b => a == b
  | boolean a, boolean b => a == b
  | string a, string b => a == b
  | none, none => true
  | _, _ => false

/-- Equality of values without a look into Lists and Mappings. A List, a Mapping or a function is
equal to itself only, and a NaN to nothing. -/
def identical : Value → Value → Bool
  | float a, float b => a == b
  | nan _, nan _ => false
  | list a, list b => a == b
  | mapping a, mapping b => a == b
  | function a _, function b _ => a == b
  | native a, native b => a == b
  | bound a r, bound b s => a == b && r.identical s
  | foreign a, foreign b => a.same b
  | a, b => a.sameKey b

/-- A Float of a document. Every NaN there is one object. -/
def ofDocument (x : Float) : Value := if x.isNaN then nan .document else float x

def ofJson : Json → Value
  | .integer n => integer n
  | .float x => ofDocument x
  | .boolean b => boolean b
  | .string s => string s
  | datum => foreign datum

def escapedChar (c : Char) : List Char :=
  if c = '\\' then ['\\', '\\']
  else if c = '"' then ['\\', '"']
  else if c = '\n' then ['\\', 'n']
  else if c = '\t' then ['\\', 't']
  else [c]

def quotedString (s : String) : String :=
  String.ofList ('"' :: s.toList.flatMap escapedChar ++ ['"'])

/-- The text of a value that holds no others. Lists and Mappings have their brackets only. -/
def atomText : Value → String
  | integer n => Number.numeral n
  | float x => Number.floatText x
  | nan _ => "nan"
  | boolean b => if b then "true" else "false"
  | string s => quotedString s
  | none => "none"
  | list _ => "[...]"
  | mapping _ => "\x7b...\x7d"
  | function _ name => "<function " ++ name ++ ">"
  | native name => "<builtin " ++ name ++ ">"
  | bound name _ => "<builtin " ++ name ++ ">"
  | foreign datum => datum.display

end Value

end Offside
