import Offside.Builtin
import Offside.Number.Hypotenuse

/-!
Mathematical functions. Arguments are rounded to Floats; results are Floats, but those of the
rounding functions are Integers. An argument outside a function's domain and a result beyond the
largest Float are failures.
-/

namespace Offside.Library

open Offside.Action

namespace Arithmetic

def argument : Value → Action Float
  | .integer n =>
    match Number.ofInt? n with
    | some x => return x
    | none => fail .mathRange
  | v => toFloat v

/-- All arguments have to be numbers before the first is rounded. -/
def arguments (name : String) (args : List Value) : Action (List Float) := do
  (← args.mapM (number name "argument")).mapM argument

/-- A result; a NaN comes only of a NaN, and an infinity only of an infinity unless the function
can outgrow the Floats. -/
def checked (outgrows : Bool) (x y : Float) : Action Value :=
  if Number.isNaN y && !Number.isNaN x then fail .mathDomain
  else if Number.isInfinite y && Number.isFinite x then
    fail (if outgrows then .mathRange else .mathDomain)
  else return .float y

def function (name : String) (outgrows : Bool) (f : Float → Float) : Builtin :=
  ⟨name, some 1, none, fun args => do
    match ← arguments name args with
    | [x] => checked outgrows x (f x)
    | _ => fault .missingArgument⟩

def rounding (name : String) (f : Float → Option Int) : Builtin :=
  ⟨name, some 1, none, fun args => do
    match ← arguments name args with
    | [x] =>
      match f x with
      | some n => return .integer n
      | none => fail (if Number.isNaN x then .mathDomain else .mathRange)
    | _ => fault .missingArgument⟩

def binaryFunction (name : String) (f : Float → Float → Action Value) : Builtin :=
  ⟨name, some 2, none, fun args => do
    match ← arguments name args with
    | [x, y] => f x y
    | _ => fault .missingArgument⟩

def constant (name : String) (v : Value) : Builtin :=
  ⟨name, some 0, none, fun _ => return v⟩

def remainder (x y : Float) : Action Value :=
  match Number.remainder? x y with
  | some r => return .float r
  | none => fail .mathDomain

def isOdd (y : Float) : Bool :=
  match Number.remainder? y.abs 2 with
  | some r => r == 1
  | none => false

/-- Powers with an infinity or a NaN for an operand: the limits, where there are limits. -/
def extremePower (x y : Float) : Float :=
  if Number.isNaN x then (if y == 0 then 1 else x)
  else if Number.isNaN y then (if x == 1 then 1 else y)
  else if Number.isInfinite x then
    let odd := Number.isFinite y && isOdd y
    if y > 0 then (if odd then x else x.abs)
    else if y == 0 then 1
    else if odd && x < 0 then -0.0 else 0
  else if x.abs == 1 then 1
  else if y > 0 && x.abs > 1 then y
  else if y < 0 && x.abs < 1 then -y
  else 0

def power (x y : Float) : Action Value :=
  if !Number.isFinite x || !Number.isFinite y then return .float (extremePower x y)
  else
    let r := x.pow y
    if Number.isNaN r then fail .mathDomain
    else if Number.isInfinite r then fail (if x == 0 then .mathDomain else .mathRange)
    else return .float r

/-- The natural logarithm, outside the domain at zero and below. -/
def logarithm (x : Float) : Float := if x ≤ 0 then Number.notANumber else x.log

end Arithmetic

def arithmetic : List Builtin := [
  Arithmetic.function "math_sqrt" false Float.sqrt,
  Arithmetic.function "math_exp" true Float.exp,
  Arithmetic.function "math_log" false Arithmetic.logarithm,
  Arithmetic.function "math_sin" false Float.sin,
  Arithmetic.function "math_cos" false Float.cos,
  Arithmetic.function "math_tan" false Float.tan,
  Arithmetic.function "math_asin" false Float.asin,
  Arithmetic.function "math_acos" false Float.acos,
  Arithmetic.function "math_atan" false Float.atan,
  Arithmetic.function "math_fabs" false Float.abs,
  Arithmetic.rounding "math_floor" Number.floor?,
  Arithmetic.rounding "math_ceil" Number.ceiling?,
  Arithmetic.rounding "math_trunc" Number.truncate?,
  Arithmetic.rounding "math_round" Number.roundAway?,
  Arithmetic.binaryFunction "math_fmod" Arithmetic.remainder,
  Arithmetic.binaryFunction "math_hypot" fun x y => return .float (Number.hypotenuse x y),
  Arithmetic.binaryFunction "math_pow" Arithmetic.power,
  Arithmetic.constant "math_pi" (.float 3.141592653589793),
  Arithmetic.constant "math_e" (.float 2.718281828459045),
  Arithmetic.constant "math_tau" (.float 6.283185307179586),
  Arithmetic.constant "math_inf" (.float (Number.infinity false)),
  Arithmetic.constant "math_nan" (.nan .constant)]

end Offside.Library
