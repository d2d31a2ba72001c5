import JsonPath.Json

set_option autoImplicit false

/-!
# What filter expressions evaluate to

A truth value, a JSON value that may be missing, or a list of selected values. A truth value is not
a JSON boolean, and a missing value is not a null.
-/
namespace JsonPath

inductive ExprType where
  | logical
  | json
  | nodes
  deriving DecidableEq

namespace ExprType

def text : ExprType → String
  | .logical => "logical"
  | .json => "JSON value"
  | .nodes => "node-list"

end ExprType

inductive ExprValue where
  | logical (b : Bool)
  | json (value : Option Json)
  | nodes (values : List Json)

namespace ExprValue

def absent : ExprValue := .json none

def ofJson (v : Json) : ExprValue := .json (some v)

def type : ExprValue → ExprType
  | .logical _ => .logical
  | .json _ => .json
  | .nodes _ => .nodes

def json? : ExprValue → Option Json
  | .json v => v
  | _ => none

def nodes? : ExprValue → Option (List Json)
  | .nodes vs => some vs
  | _ => none

end ExprValue

inductive Description where
  | logical (b : Bool)
  | json (kind : String)
  | nodes (count : Nat)
  deriving DecidableEq

namespace Description

def text : Description → String
  | .logical b => "logical " ++ toString b
  | .json kind => kind
  | .nodes count => "node-list of " ++ toString count

end Description

namespace ExprValue

def description : ExprValue → Description
  | .logical b => .logical b
  | .json v => .json (Json.kindName v)
  | .nodes vs => .nodes vs.length

def describe (v : ExprValue) : String := v.description.text

end ExprValue
end JsonPath
