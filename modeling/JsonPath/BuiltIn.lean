import JsonPath.Comparison
import JsonPath.Environment
import JsonPath.IRegexp

set_option autoImplicit false

/-!
# Built-in functions

The functions of RFC 9535, and three more: `values` makes an array of the selected values, `subset`
compares two arrays as sets, and `contains` looks for a scalar in an array.
-/
namespace JsonPath.BuiltIn

/-- The JSON value of an argument; missing for other arguments and beyond the last one. -/
def jsonArg (args : List ExprValue) (i : Nat) : Option Json := args[i]?.bind ExprValue.json?

def nodesArg (args : List ExprValue) : List Json := (args.head?.bind ExprValue.nodes?).getD []

/-- The characters of a string, the elements of an array or the members of an object. -/
def lengthOf : Option Json → ExprValue
  | some (.string s) => .ofJson (.integer s.length)
  | some (.array items) => .ofJson (.integer items.length)
  | some (.object members) => .ofJson (.integer members.length)
  | _ => .absent

def onlyOne : List Json → ExprValue
  | [v] => .ofJson v
  | _ => .absent

def testPattern (engine : IRegexp.Engine) (scope : IRegexp.Scope) :
    Option Json → Option Json → Bool
  | some (.string text), some (.string pattern) => engine.test text pattern scope
  | _, _ => false

/-- Every element of the first array equals one of the second. -/
def isSubset : Option Json → Option Json → Bool
  | some (.array items), some (.array others) =>
    items.all fun item => others.any fun other => item.equal other
  | _, _ => false

/-- An element of the array equals the scalar. -/
def holdsScalar : Option Json → Option Json → Bool
  | _, some (.array _) => false
  | _, some (.object _) => false
  | some (.array items), some scalar => items.any fun item => item.equal scalar
  | _, _ => false

def length : Function where
  params := [.json]
  result := .json
  apply _ _ args := .ok (lengthOf (jsonArg args 0))

def count : Function where
  params := [.nodes]
  result := .json
  apply _ _ args := .ok (.ofJson (.integer (nodesArg args).length))

def matchWhole (engine : IRegexp.Engine) : Function where
  params := [.json, .json]
  result := .logical
  apply _ _ args := .ok (.logical (testPattern engine .whole (jsonArg args 0) (jsonArg args 1)))

def search (engine : IRegexp.Engine) : Function where
  params := [.json, .json]
  result := .logical
  apply _ _ args := .ok (.logical (testPattern engine .part (jsonArg args 0) (jsonArg args 1)))

def value : Function where
  params := [.nodes]
  result := .json
  apply _ _ args := .ok (onlyOne (nodesArg args))

def values : Function where
  params := [.nodes]
  result := .json
  apply _ _ args := .ok (.ofJson (.array (nodesArg args)))

def subset : Function where
  params := [.json, .json]
  result := .logical
  apply _ _ args := .ok (.logical (isSubset (jsonArg args 0) (jsonArg args 1)))

def contains : Function where
  params := [.json, .json]
  result := .logical
  apply _ _ args := .ok (.logical (holdsScalar (jsonArg args 0) (jsonArg args 1)))

end JsonPath.BuiltIn

namespace JsonPath

/-- The built-in functions, with patterns as an engine reads them, and no variables. -/
def Environment.builtIns (engine : IRegexp.Engine) : Environment :=
  Environment.empty
    |>.withFunction "length" BuiltIn.length
    |>.withFunction "count" BuiltIn.count
    |>.withFunction "match" (BuiltIn.matchWhole engine)
    |>.withFunction "search" (BuiltIn.search engine)
    |>.withFunction "value" BuiltIn.value
    |>.withFunction "values" BuiltIn.values
    |>.withFunction "subset" BuiltIn.subset
    |>.withFunction "contains" BuiltIn.contains

theorem Environment.builtIns_apply {engine : IRegexp.Engine} {name : String} {f : Function}
    (hf : (Environment.builtIns engine).findFunction name = some f)
    (root root' current current' : Json) (args : List ExprValue) :
    f.apply root current args = f.apply root' current' args := by
  let P (f : Function) : Prop := f.apply root current args = f.apply root' current' args
  have hempty : ∀ name f, Environment.empty.findFunction name = some f → P f := nofun
  have hbuiltIns : ∀ name f, (Environment.builtIns engine).findFunction name = some f → P f :=
    hempty
      |> forall_withFunction "length" rfl
      |> forall_withFunction "count" rfl
      |> forall_withFunction "match" rfl
      |> forall_withFunction "search" rfl
      |> forall_withFunction "value" rfl
      |> forall_withFunction "values" rfl
      |> forall_withFunction "subset" rfl
      |> forall_withFunction "contains" rfl
  exact hbuiltIns name f hf

end JsonPath
