import Offside.Error
import Offside.Heap.Equality
import Offside.Text.Search

/-!
Operators on evaluated operands. An operator looks at the kinds of its operands first; Integers
are exact, an Integer that meets a Float is rounded to one, and order between the two is exact.
-/

namespace Offside.Operation

abbrev Result := Except Trouble

def refuse {α : Type} (c : Cause) : Result α := .error (.cause c)

def unsupported {α : Type} (op : String) (a b : Value) : Result α :=
  refuse (.unsupportedOperands op a.kind b.kind)

def boolean (test : Test) : Value → Result Bool
  | .boolean b => .ok b
  | v => refuse (.notBoolean test v.kind)

def widen (op : String) (n : Int) : Result Float :=
  match Number.ofInt? n with
  | some x => .ok x
  | none => refuse (.resultTooLarge op)

/-- Applies one of two forms of an operator: on Integers, or on Floats when either is one. -/
def numeric (op : String) (exact : Int → Int → Result Value)
    (rounded : Float → Float → Result Value) (a b : Value) : Result Value :=
  match a.unnamed, b.unnamed with
  | .integer a, .integer b => exact a b
  | .float a, .float b => rounded a b
  | .integer a, .float b => do rounded (← widen op a) b
  | .float a, .integer b => do rounded a (← widen op b)
  | a, b => unsupported op a b

def add : Value → Value → Result Value
  | .string a, .string b => .ok (.string (a ++ b))
  | a, b => numeric "+" (fun a b => .ok (.integer (a + b))) (fun a b => .ok (.float (a + b))) a b

def subtract : Value → Value → Result Value :=
  numeric "-" (fun a b => .ok (.integer (a - b))) (fun a b => .ok (.float (a - b)))

def multiply : Value → Value → Result Value :=
  numeric "*" (fun a b => .ok (.integer (a * b))) (fun a b => .ok (.float (a * b)))

def isZero : Value → Bool
  | .integer n => n == 0
  | .float x => x == 0
  | _ => false

/-- Division of Integers gives the Float nearest the quotient. -/
def divide (a b : Value) : Result Value :=
  if a.isNumber && isZero b then refuse .divisionByZero
  else
    numeric "/"
      (fun a b =>
        match Number.quotient? a b with
        | some x => .ok (.float x)
        | none => refuse (.resultTooLarge "/"))
      (fun a b => .ok (.float (a / b))) a b

/-- The remainder has the sign of the dividend. Integers and Floats do not mix. -/
def modulo (a b : Value) : Result Value :=
  match a.unnamed, b.unnamed with
  | .integer a, .integer b =>
    if b = 0 then refuse .moduloByZero else .ok (.integer (a.tmod b))
  | .float a, .float b =>
    if b == 0 then refuse .moduloByZero
    else match Number.remainder? a b with
      | some x => .ok (.float x)
      | none => .error (.fault .noRemainder)
  | a, b => unsupported "%" a b

/-- The order of two numbers or two Strings; none if one of them is a NaN. -/
def order? (op : String) (a b : Value) : Result (Option Ordering) :=
  match a.unnamed, b.unnamed with
  | .integer a, .integer b => .ok (some (compare a b))
  | .float a, .float b =>
    .ok (if a < b then some .lt else if a > b then some .gt else if a == b then some .eq else none)
  | .integer a, .float b => .ok (Number.compareInt? a b)
  | .float a, .integer b => .ok ((Number.compareInt? b a).map Ordering.swap)
  | .string a, .string b =>
    .ok (some (if Text.before a b then .lt else if Text.before b a then .gt else .eq))
  | a, b => unsupported op a b

def less (op : String) (a b : Value) : Result Bool := do
  return (← order? op a b) == some .lt

def ordered (op : String) (a b : Value) : Result Bool := do
  let order ← order? op a b
  return match op with
    | "<" => order == some .lt
    | ">" => order == some .gt
    | "<=" => order == some .lt || order == some .eq
    | _ => order == some .gt || order == some .eq

def checkKey (key : Value) : Result Unit :=
  if key.isHashable then .ok () else refuse (.unhashable key.kind)

def contains (h : Heap) (container item : Value) : Result Bool :=
  match container with
  | .list id => .ok ((h.list id).any fun element => h.equal element item)
  | .mapping id => do
    checkKey item
    return (h.mapping id).contains item
  | .string s =>
    match item with
    | .string part => .ok (Text.contains part.toList s.toList)
    | _ => refuse (.memberOfText item.kind)
  | _ => refuse (.noMembers container.kind)

/-- Applies a binary operator other than `and` and `or`. -/
def binary (h : Heap) (op : String) (a b : Value) : Result Value :=
  match op with
  | "+" => add a b
  | "-" => subtract a b
  | "*" => multiply a b
  | "/" => divide a b
  | "%" => modulo a b
  | "==" => .ok (.boolean (h.equal a b))
  | "!=" => .ok (.boolean (!h.equal a b))
  | "<" | ">" | "<=" | ">=" => do return .boolean (← ordered op a b)
  | "in" => do return .boolean (← contains h b a)
  | "not in" => do return .boolean (!(← contains h b a))
  | _ => refuse (.unknownOperator op)

def unary (op : String) (v : Value) : Result Value :=
  match op with
  | "-" =>
    match v.unnamed with
    | .integer n => .ok (.integer (-n))
    | .float x => .ok (.float (-x))
    | _ => refuse (.notNegatable v.kind)
  | "not" => do return .boolean (!(← boolean (.operand "not") v))
  | _ => refuse (.unknownUnaryOperator op)

end Offside.Operation
