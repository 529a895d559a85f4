import Offside.Number.FloatText
import Offside.Text.Quoted

/-!
JSON data and its text. Objects keep their fields in order. The writer leaves non-ASCII
characters as they are; with an indentation every item stands on a line of its own.
-/

namespace Offside

inductive Json where
  | null
  | boolean (b : Bool)
  | integer (n : Int)
  | float (x : Float)
  | string (s : String)
  | array (items : List Json)
  | object (fields : List (String × Json))
  deriving Inhabited

instance : Coe String Json := ⟨.string⟩

namespace Json

/-- Floats are laid out as everywhere else, but the values JSON has no numerals for differ. -/
def floatLayout : Number.FloatLayout :=
  { Number.floatLayout with nan := "NaN", infinity := "Infinity", negativeInfinity := "-Infinity" }

def escapeChar (c : Char) : List Char :=
  if c = '"' then ['\\', '"']
  else if c = '\\' then ['\\', '\\']
  else if c = '\n' then ['\\', 'n']
  else if c = '\r' then ['\\', 'r']
  else if c = '\t' then ['\\', 't']
  else if c = '\x0c' then ['\\', 'f']
  else if c = '\x08' then ['\\', 'b']
  else if c.toNat < 0x20 then '\\' :: 'u' :: Text.hexDigits 4 c.toNat
  else [c]

def quote (s : String) : String :=
  String.ofList ('"' :: s.toList.flatMap escapeChar ++ ['"'])

/-- Text between the items of a container: what opens it, divides it and closes it. -/
structure Spacing where
  opening : String
  divider : String
  closing : String

/-- The spacing at nesting depth `depth` for an optional indentation. -/
def spacing (indent : Option Nat) (depth : Nat) : Spacing :=
  match indent with
  | none => ⟨"", ", ", ""⟩
  | some width =>
    let line (d : Nat) := "\n" ++ String.ofList (List.replicate (width * d) ' ')
    ⟨line (depth + 1), "," ++ line (depth + 1), line depth⟩

mutual
def renderAt (indent : Option Nat) (depth : Nat) : Json → String
  | .null => "null"
  | .boolean b => if b then "true" else "false"
  | .integer n => Number.numeral n
  | .float x => floatLayout.render x
  | .string s => quote s
  | .array [] => "[]"
  | .array (item :: items) =>
    let gap := spacing indent depth
    "[" ++ gap.opening ++ renderAt indent (depth + 1) item ++
      renderItems indent (depth + 1) gap.divider items ++ gap.closing ++ "]"
  | .object [] => "\x7b\x7d"
  | .object ((key, value) :: fields) =>
    let gap := spacing indent depth
    "\x7b" ++ gap.opening ++ quote key ++ ": " ++ renderAt indent (depth + 1) value ++
      renderFields indent (depth + 1) gap.divider fields ++ gap.closing ++ "\x7d"
def renderItems (indent : Option Nat) (depth : Nat) (divider : String) : List Json → String
  | [] => ""
  | item :: items =>
    divider ++ renderAt indent depth item ++ renderItems indent depth divider items
def renderFields (indent : Option Nat) (depth : Nat) (divider : String) :
    List (String × Json) → String
  | [] => ""
  | (key, value) :: fields =>
    divider ++ quote key ++ ": " ++ renderAt indent depth value ++
      renderFields indent depth divider fields
end

def render (indent : Option Nat) (j : Json) : String := renderAt indent 0 j

def field? (key : String) : Json → Option Json
  | .object fields => (fields.find? (·.1 == key)).map (·.2)
  | _ => none

/-- Sets a field; one already there keeps its place. -/
def setField (fields : List (String × Json)) (key : String) (value : Json) :
    List (String × Json) :=
  if fields.any (·.1 == key) then fields.map fun f => if f.1 == key then (key, value) else f
  else fields ++ [(key, value)]

mutual
/-- Nesting depth. -/
def depth : Json → Nat
  | .array items => itemsDepth items + 1
  | .object fields => fieldsDepth fields + 1
  | _ => 1
def itemsDepth : List Json → Nat
  | [] => 0
  | item :: items => max item.depth (itemsDepth items)
def fieldsDepth : List (String × Json) → Nat
  | [] => 0
  | (_, value) :: fields => max value.depth (fieldsDepth fields)
end

mutual
/-- Whether an integer inside has more than `limit` digits. -/
def hasLongInteger (limit : Nat) : Json → Bool
  | .integer n => 10 ^ limit ≤ n.natAbs
  | .array items => longAmongItems limit items
  | .object fields => longAmongFields limit fields
  | _ => false
def longAmongItems (limit : Nat) : List Json → Bool
  | [] => false
  | item :: items => item.hasLongInteger limit || longAmongItems limit items
def longAmongFields (limit : Nat) : List (String × Json) → Bool
  | [] => false
  | (_, value) :: fields => value.hasLongInteger limit || longAmongFields limit fields
end

mutual
def display : Json → String
  | .null => "None"
  | .boolean b => if b then "True" else "False"
  | .integer n => Number.numeral n
  | .float x => Number.floatText x
  | .string s => Text.quoted s
  | .array items => "[" ++ ", ".intercalate (displayItems items) ++ "]"
  | .object fields => "\x7b" ++ ", ".intercalate (displayFields fields) ++ "\x7d"
def displayItems : List Json → List String
  | [] => []
  | item :: items => item.display :: displayItems items
def displayFields : List (String × Json) → List String
  | [] => []
  | (key, value) :: fields => (Text.quoted key ++ ": " ++ value.display) :: displayFields fields
end

/-- The name of a datum's type, as diagnostics give it. -/
def typeName : Json → String
  | .null => "NoneType"
  | .boolean _ => "bool"
  | .integer _ => "int"
  | .float _ => "float"
  | .string _ => "str"
  | .array _ => "list"
  | .object _ => "dict"

/-- A datum inside a sentence: a text stands for itself. -/
def plain : Json → String
  | .string s => s
  | j => j.display

def isText (j : Json) (text : String) : Bool :=
  match j with
  | .string s => s == text
  | _ => false

def isContainer : Json → Bool
  | .array _ | .object _ => true
  | _ => false

/-- A truth value as a number. -/
def countable : Json → Json
  | .boolean b => .integer (if b then 1 else 0)
  | j => j

/-- Equality of data that hold no others. Numbers compare by value whatever their sort; a NaN is
itself. -/
def sameAtom (a b : Json) : Bool :=
  match a.countable, b.countable with
  | .null, .null => true
  | .integer m, .integer n => m == n
  | .integer m, .float y => Number.compareInt? m y == some .eq
  | .float x, .integer n => Number.compareInt? n x == some .eq
  | .float x, .float y => x == y || (Number.isNaN x && Number.isNaN y)
  | .string s, .string t => s == t
  | _, _ => false

mutual
/-- Equal data: equal items in the same order, equal fields in any order. -/
def same : Json → Json → Bool
  | .array a, .array b => sameItems a b
  | .object a, .object b => a.length == b.length && sameFields a b
  | a, b => sameAtom a b
def sameItems : List Json → List Json → Bool
  | [], [] => true
  | a :: as, b :: bs => a.same b && sameItems as bs
  | _, _ => false
def sameFields : List (String × Json) → List (String × Json) → Bool
  | [], _ => true
  | (key, a) :: as, other =>
    (match other.find? (·.1 == key) with
     | some (_, b) => a.same b
     | none => false) && sameFields as other
end

end Json

end Offside
