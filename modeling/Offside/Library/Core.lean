import Offside.Builtin
import Offside.Sorting

/-!
Global functions: output and input, conversions, and work on Lists.
-/

namespace Offside.Library

open Offside.Action

def print (args : List Value) : Action Value := do
  let h ← heap
  modify fun w => w.print (" ".intercalate (args.map h.text) ++ "\n")
  return .none

def length : List Value → Action Value
  | [.string s] => return .integer s.length
  | [.list id] => do return .integer ((← heap).list id).size
  | [.mapping id] => do return .integer ((← heap).mapping id).size
  | [v] => fail (.noLength v.kind)
  | _ => fault .missingArgument

/-- Prints a prompt and reads a line; the end of the input reads as an empty one. -/
def input (args : List Value) : Action Value := do
  let prompt ← match args with
    | v :: _ => string "input" "prompt" v
    | [] => pure ""
  modify (·.print prompt)
  return .string ((← modifyGet fun w => w.readLine).getD "")

def toText : List Value → Action Value
  | [v] => do return .string ((← heap).text v)
  | _ => fault .missingArgument

def toInteger : List Value → Action Value
  | [.boolean b] => return .integer (if b then 1 else 0)
  | [.integer n] => return .integer n
  | [.float x] =>
    match Number.truncate? x with
    | some n => return .integer n
    | none => fail (.notAnInteger (Number.floatText x))
  | [.nan _] => fail (.notAnInteger (Number.floatText Number.notANumber))
  | [.string s] =>
    match Number.readInteger? (Text.trim s.toList) with
    | some n => return .integer n
    | none => fail (.noIntegerText (Value.quotedString s))
  | [v] => fail (.noInteger v.kind)
  | _ => fault .missingArgument

def toFloatValue : List Value → Action Value
  | [.boolean b] => return .float (if b then 1 else 0)
  | [.integer n] =>
    match Number.ofInt? n with
    | some x => return .float x
    | none => fail .tooLargeForFloat
  | [.float x] => return .float x
  | [.nan object] => return .nan object
  | [.string s] =>
    match Number.readFloat? (Text.trim s.toList) with
    | some x => return .float x
    | none => fail (.noFloatText (Value.quotedString s))
  | [v] => fail (.noFloat v.kind)
  | _ => fault .missingArgument

def toBoolean : List Value → Action Value
  | [v] => do return .boolean ((← heap).isTruthy v)
  | _ => fault .missingArgument

def typeName : List Value → Action Value
  | [v] => return .string v.kind.name
  | _ => fault .missingArgument

/-- How many steps lead from `start` to before `stop`. -/
def stepCount (start stop step : Int) : Nat :=
  if 0 < step ∧ start < stop then ((stop - start - 1) / step + 1).toNat
  else if step < 0 ∧ stop < start then ((start - stop - 1) / (-step) + 1).toNat
  else 0

/-- No memory holds a List of this many items. -/
def tooManyItems : Nat := 2 ^ 36

/-- The arithmetic progression from `start` to before `stop`. -/
def progression (start stop step : Int) : Action Value := do
  if step = 0 then fail .zeroStep
  let count := stepCount start stop step
  checkIndex count
  if tooManyItems ≤ count then fault .outOfMemory
  newList ((List.range count).map fun (i : Nat) => .integer (start + step * (i : Int)))

def range (args : List Value) : Action Value := do
  match ← args.mapM (integer "range" "argument") with
  | [stop] => progression 0 stop 1
  | [start, stop] => progression start stop 1
  | [start, stop, step] => progression start stop step
  | _ => fault .missingArgument

def toList : List Value → Action Value
  | [] => newList []
  | [.list id] => do newList (← items id)
  | [.string s] => newList (s.toList.map fun c => .string (String.singleton c))
  | [.mapping id] => do newList (← mapping id).keys
  | v :: _ => fail (.noList v.kind)

def append : List Value → Action Value
  | [target, v] => do
    let id ← list "append" "target" target
    modifyHeap (·.modifyList id (·.push v))
    return .none
  | _ => fault .missingArgument

def keys : List Value → Action Value
  | [v] => do newList (← mapping (← map "keys" "argument" v)).keys
  | _ => fault .missingArgument

def values : List Value → Action Value
  | [v] => do newList (← mapping (← map "values" "argument" v)).values
  | _ => fault .missingArgument

def absolute : List Value → Action Value
  | [.integer n] => return .integer n.natAbs
  | [.float x] => return .float x.abs
  | [.nan _] => return .float Number.notANumber.abs
  | [v] => wrongKind "abs" "argument" "Number" v
  | _ => fault .missingArgument

/-- Whether one value stands before another in an order that a builtin needs. -/
def before (builtin : String) (a b : Value) : Except Refusal Bool :=
  match Operation.less "<" a b with
  | .ok answer => .ok answer
  | .error _ => .error (.failure (.noOrder builtin a.kind b.kind))

def liftRefusal {α : Type} : Except Refusal α → Action α
  | .ok a => pure a
  | .error r => throw r

/-- What is compared: the items of a single List, or the arguments. -/
def candidates (builtin : String) (args : List Value) : Action (Value × List Value) := do
  let found ← match args with
    | [] => fail (.noArgument builtin)
    | [v] => items (← list builtin "argument" v)
    | _ => pure args
  match found with
  | [] => fail (.emptyList builtin)
  | first :: rest => return (first, rest)

def minimum (args : List Value) : Action Value := do
  let (first, rest) ← candidates "min" args
  rest.foldlM
    (fun best v => do return if ← liftRefusal (before "min" v best) then v else best) first

def maximum (args : List Value) : Action Value := do
  let (first, rest) ← candidates "max" args
  rest.foldlM
    (fun best v => do return if ← liftRefusal (before "max" best v) then v else best) first

def plus : Value → Value → Action Value
  | .integer a, .integer b => return .integer (a + b)
  | a, b => do return .float ((← toFloat a) + (← toFloat b))

def sum : List Value → Action Value
  | [v] => do
    (← items (← list "sum" "argument" v)).foldlM
      (fun total item => do plus total (← number "sum" "element" item)) (.integer 0)
  | _ => fault .missingArgument

def popItem (id : Nat) (index : Option Value) : Action Value := do
  let size := ((← heap).list id).size
  if size = 0 then fail .popFromEmpty
  let p ← ofOperation (Operation.position "List" size (index.getD (.integer (-1))))
  let item := ((← heap).list id)[p]?.getD .none
  modifyHeap (·.modifyList id (·.eraseIdxIfInBounds p))
  return item

def pop : List Value → Action Value
  | target :: rest => do popItem (← list "pop" "target" target) rest.head?
  | _ => fault .missingArgument

/-- Where an index puts a new item; one beyond an end means that end. -/
def insertionPoint (size : Nat) (index : Int) : Nat :=
  min (if index < 0 then index + size else index).toNat size

def insertItem (id : Nat) (index : Int) (v : Value) : Action Value := do
  checkIndex index
  modifyHeap (·.modifyList id fun xs => xs.insertIdxIfInBounds (insertionPoint xs.size index) v)
  return .none

def insert : List Value → Action Value
  | [target, index, v] => do
    let id ← list "insert" "target" target
    insertItem id (← integer "insert" "index" index) v
  | _ => fault .missingArgument

/-- Whether the values are all Integers or all Strings, so that any two can be ordered and equal
ones are the same. -/
def areOrdered (vs : List Value) : Bool :=
  vs.all (·.kind = .integer) || vs.all (·.kind = .string)

/-- Whether a value may stand before another one of its kind. -/
def precedes : Value → Value → Bool
  | .integer a, .integer b => a ≤ b
  | .string a, .string b => !Text.before b a
  | _, _ => false

/-- The ascending arrangement of values. -/
def arrange (builtin : String) (vs : List Value) :
    Except (Sorting.Stopped Value Refusal) (List Value) :=
  if areOrdered vs then .ok (vs.mergeSort precedes) else Sorting.sort (before builtin) vs

def sorted : List Value → Action Value
  | [v] => do
    let id ← list "sorted" "argument" v
    match arrange "sorted" (← items id) with
    | .ok arranged => newList arranged
    | .error stop => throw stop.cause
  | _ => fault .missingArgument

def reversed : List Value → Action Value
  | [.list id] => do newList (← items id).reverse
  | [.string s] => return .string (String.ofList s.toList.reverse)
  | [v] => wrongKind "reversed" "argument" "List or String" v
  | _ => fault .missingArgument

def enumerate : List Value → Action Value
  | [v] => do
    let found ← items (← list "enumerate" "argument" v)
    newList (← found.zipIdx.mapM fun (item, i) => newList [.integer i, item])
  | _ => fault .missingArgument

def zip : List Value → Action Value
  | [a, b] => do
    let left ← list "zip" "argument" a
    let right ← list "zip" "argument" b
    newList (← ((← items left).zip (← items right)).mapM fun (x, y) => newList [x, y])
  | _ => fault .missingArgument

def character : List Value → Action Value
  | [v] => do
    let code ← integer "chr" "argument" v
    if 0 ≤ code ∧ code ≤ 0x10FFFF then
      return .string (String.singleton (Text.ofCodePoint code.toNat))
    else fail (.codePoint code)
  | _ => fault .missingArgument

def codePoint : List Value → Action Value
  | [v] => do
    match (← string "ord" "argument" v).toList with
    | [c] => return .integer (Text.codePoint c)
    | cs => fail (.notOneCharacter cs.length)
  | _ => fault .missingArgument

def hexadecimal : List Value → Action Value
  | [v] => do
    let n ← integer "hex" "argument" v
    let digits := '0' :: 'x' :: Nat.toDigits 16 n.natAbs
    return .string (String.ofList (if n < 0 then '-' :: digits else digits))
  | _ => fault .missingArgument

/-- Rounds to an Integer, or to a number of decimal places. -/
def round : List Value → Action Value
  | [v] => do
    match (← number "round" "argument" v).unnamed with
    | .float x =>
      match Number.roundAway? x with
      | some n => return .integer n
      | none => fail (.notRoundable (Number.floatText x))
    | v => return v
  | [v, places] => do
    let v ← number "round" "argument" v
    let places ← integer "round" "digits" places
    match Number.roundTo (← toFloat v) places with
    | .value x => return .float x
    | .tooLarge => fault .roundedBeyondFloat
  | _ => fault .missingArgument

def core : List Builtin := [
  ⟨"print", none, none, print⟩,
  ⟨"len", some 1, none, length⟩,
  ⟨"input", some 0, some 1, input⟩,
  ⟨"str", some 1, none, toText⟩,
  ⟨"int", some 1, none, toInteger⟩,
  ⟨"float", some 1, none, toFloatValue⟩,
  ⟨"bool", some 1, none, toBoolean⟩,
  ⟨"type", some 1, none, typeName⟩,
  ⟨"range", some 1, some 3, range⟩,
  ⟨"list", some 0, some 1, toList⟩,
  ⟨"append", some 2, none, append⟩,
  ⟨"keys", some 1, none, keys⟩,
  ⟨"values", some 1, none, values⟩,
  ⟨"abs", some 1, none, absolute⟩,
  ⟨"min", none, none, minimum⟩,
  ⟨"max", none, none, maximum⟩,
  ⟨"sum", some 1, none, sum⟩,
  ⟨"pop", some 1, some 2, pop⟩,
  ⟨"insert", some 3, none, insert⟩,
  ⟨"sorted", some 1, none, sorted⟩,
  ⟨"reversed", some 1, none, reversed⟩,
  ⟨"enumerate", some 1, none, enumerate⟩,
  ⟨"zip", some 2, none, zip⟩,
  ⟨"chr", some 1, none, character⟩,
  ⟨"ord", some 1, none, codePoint⟩,
  ⟨"hex", some 1, none, hexadecimal⟩,
  ⟨"round", some 1, some 2, round⟩]

end Offside.Library
