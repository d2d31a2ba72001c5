import JsonPath.Json
import JsonPath.Syntax

set_option autoImplicit false

/-!
# Comparison of JSON values

Integers compare exactly and other pairs of numbers as floats. Arrays are equal element by element,
objects member by member in any order. Only booleans, numbers and strings have an order, each among
themselves.
-/
namespace JsonPath

namespace Number

def toFloat : Number → Float
  | .integer n => Float.ofInt n
  | .float x => x

def compareFloats (x y : Float) : Option Ordering :=
  if x < y then some .lt else if x == y then some .eq else if y < x then some .gt else none

/-- There is no answer for a NaN. -/
def compare : Number → Number → Option Ordering
  | .integer a, .integer b => some (Ord.compare a b)
  | a, b => compareFloats a.toFloat b.toFloat

end Number

mutual
def Json.equal : Json → Json → Bool
  | .null, .null => true
  | .bool a, .bool b => a == b
  | .number a, .number b => a.compare b == some .eq
  | .string a, .string b => a == b
  | .array as, .array bs => equalItems as bs
  | .object as, .object bs => as.length == bs.length && equalMembers as bs
  | _, _ => false

def equalItems : List Json → List Json → Bool
  | [], [] => true
  | a :: as, b :: bs => a.equal b && equalItems as bs
  | _, _ => false

/-- Every member of the first list has an equal one of its name in the second. -/
def equalMembers : List (String × Json) → List (String × Json) → Bool
  | [], _ => true
  | (name, a) :: as, bs =>
    (match bs.lookup name with
      | some b => a.equal b
      | none => false) && equalMembers as bs
end

/-- A missing value equals only another missing one. -/
def equalOperands : Option Json → Option Json → Bool
  | none, none => true
  | some a, some b => a.equal b
  | _, _ => false

def Json.order : Json → Json → Option Ordering
  | .bool a, .bool b => some (Ord.compare a b)
  | .number a, .number b => a.compare b
  | .string a, .string b => some (Ord.compare a b)
  | _, _ => none

def orderOperands (left right : Option Json) : Option Ordering := do
  Json.order (← left) (← right)

/-- Two missing values, or two nulls. -/
def bothEmpty : Option Json → Option Json → Bool
  | none, none => true
  | some .null, some .null => true
  | _, _ => false

/-- The comparison that an operator stands for. Operators that compare nothing are false. -/
def BinaryOp.compare (op : BinaryOp) (left right : Option Json) : Bool :=
  match op with
  | .equal => equalOperands left right
  | .notEqual => !equalOperands left right
  | .less => orderOperands left right == some .lt
  | .greater => orderOperands left right == some .gt
  | .lessOrEqual =>
    bothEmpty left right || orderOperands left right == some .lt
      || orderOperands left right == some .eq
  | .greaterOrEqual =>
    bothEmpty left right || orderOperands left right == some .gt
      || orderOperands left right == some .eq
  | _ => false

end JsonPath
