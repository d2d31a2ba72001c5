import JsonPath.Comparison
import JsonPath.EvalError
import JsonPath.Word

set_option autoImplicit false

/-!
# Arithmetic on JSON values

Two signed 64-bit integers are added, subtracted, multiplied and divided modulo 2 to the 64. With
any other number on either side both are taken as floats, and a result that is not finite is
missing. Two strings can be added.
-/
namespace JsonPath

namespace Number

/-- A signed 64-bit integer; greater integers are calculated with as floats. -/
def word? : Number → Option Int
  | .integer n => if Word.fits n then some n else none
  | .float _ => none

end Number

namespace BinaryOp

/-- Division truncates toward zero. -/
def onWords (op : BinaryOp) (a b : Int) : Except EvalError (Option Json) :=
  match op with
  | .add => .ok (some (Json.integer (Word.wrap (a + b))))
  | .subtract => .ok (some (Json.integer (Word.wrap (a - b))))
  | .multiply => .ok (some (Json.integer (Word.wrap (a * b))))
  | .divide =>
    if b = 0 then .error .divisionByZero else .ok (some (Json.integer (Word.wrap (a.tdiv b))))
  | _ => .ok none

def onFloats (op : BinaryOp) (x y : Float) : Except EvalError (Option Json) :=
  match op with
  | .add => .ok (Json.float? (x + y))
  | .subtract => .ok (Json.float? (x - y))
  | .multiply => .ok (Json.float? (x * y))
  | .divide => if y == 0.0 then .error .divisionByZero else .ok (Json.float? (x / y))
  | _ => .ok none

def onNumbers (op : BinaryOp) (a b : Number) : Except EvalError (Option Json) :=
  match a.word?, b.word? with
  | some m, some n => op.onWords m n
  | _, _ => op.onFloats a.toFloat b.toFloat

def operandTypes (op : BinaryOp) : EvalError.Expected :=
  if op = .add then .numbersOrStrings else .numbers

def calculate (op : BinaryOp) (left right : Option Json) : Except EvalError (Option Json) :=
  match op, left, right with
  | op, some (.number a), some (.number b) => op.onNumbers a b
  | .add, some (.string a), some (.string b) => .ok (some (.string (a ++ b)))
  | op, left, right =>
    .error (.typeMismatch (.operands op) op.operandTypes
      (.kinds (Json.kindName left) (Json.kindName right)))

end BinaryOp

def negated (operand : Option Json) : Except EvalError Json :=
  match operand with
  | some (.bool b) => .ok (.bool !b)
  | some (.number n) =>
    match n.word? with
    | some m => .ok (Json.integer (Word.wrap (-m)))
    | none =>
      match Json.float? (-n.toFloat) with
      | some v => .ok v
      | none => .error (.cannotNegate (Json.kindName operand))
  | _ => .error (.cannotNegate (Json.kindName operand))

end JsonPath
