set_option autoImplicit false

/-!
# JSON values

A document is a tree of `Json` values. Arrays and objects are plain lists, so that the order of
elements and members is the order of the document. A number keeps its spelling as an integer or as
a float: `1` and `1.0` are different values that compare as equal.
-/
namespace JsonPath

inductive Number where
  | integer (n : Int)
  | float (x : Float)
  deriving Inhabited

inductive Json where
  | null
  | bool (b : Bool)
  | number (n : Number)
  | string (s : String)
  | array (items : List Json)
  | object (members : List (String × Json))
  deriving Inhabited

namespace Json

def integer (n : Int) : Json := .number (.integer n)

/-- A finite float as a number; JSON has no other floats. -/
def float? (x : Float) : Option Json :=
  if x.isFinite then some (.number (.float x)) else none

mutual
/-- The number of values in a tree, itself included. -/
def size : Json → Nat
  | .array items => sizeItems items + 1
  | .object members => sizeMembers members + 1
  | _ => 1

def sizeItems : List Json → Nat
  | [] => 0
  | v :: rest => v.size + sizeItems rest

def sizeMembers : List (String × Json) → Nat
  | [] => 0
  | (_, v) :: rest => v.size + sizeMembers rest
end

mutual
/-- No object in the tree repeats a member name. -/
def Distinct : Json → Prop
  | .array items => DistinctItems items
  | .object members => (members.map Prod.fst).Nodup ∧ DistinctMembers members
  | _ => True

def DistinctItems : List Json → Prop
  | [] => True
  | v :: rest => v.Distinct ∧ DistinctItems rest

def DistinctMembers : List (String × Json) → Prop
  | [] => True
  | (_, v) :: rest => v.Distinct ∧ DistinctMembers rest
end

/-- The kind of a value, or of a missing one, as diagnostics name it. -/
def kindName : Option Json → String
  | none => "absent value"
  | some .null => "null"
  | some (.bool _) => "boolean"
  | some (.number (.float _)) => "float"
  | some (.number (.integer _)) => "integer"
  | some (.string _) => "string"
  | some (.array _) => "array"
  | some (.object _) => "object"

end Json
end JsonPath
