import JsonPath.EvalError
import JsonPath.NameMap

set_option autoImplicit false

/-!
# Environments

The variables and functions that the filters of a query may name.
-/
namespace JsonPath

/-- A function of filter expressions: the types of its parameters and of its result, and what it
answers for a document, the value under test and its arguments. -/
structure Function where
  params : List ExprType
  result : ExprType
  apply : (root current : Json) → (args : List ExprValue) → Except EvalError ExprValue

namespace Function

def arity (f : Function) : Nat := f.params.length

end Function

namespace ExprType

def debugText : ExprType → String
  | .logical => "Logical"
  | .json => "Json"
  | .nodes => "Nodes"

end ExprType

namespace Function

def debugText (f : Function) : String :=
  "Function \x7b params: [" ++ ", ".intercalate (f.params.map ExprType.debugText)
    ++ "], result: " ++ f.result.debugText ++ ", .. \x7d"

end Function

structure Environment where
  vars : NameMap Json
  functions : NameMap Function

namespace Environment

def empty : Environment := ⟨.empty, .empty⟩

def withVariable (env : Environment) (name : String) (value : Json) : Environment :=
  { env with vars := env.vars.insert name value }

def withFunction (env : Environment) (name : String) (f : Function) : Environment :=
  { env with functions := env.functions.insert name f }

/-- Adds every binding of `other`; its bindings win. -/
def extend (env other : Environment) : Environment :=
  ⟨env.vars.extend other.vars, env.functions.extend other.functions⟩

def findVariable (env : Environment) (name : String) : Option Json := env.vars.get? name

def findFunction (env : Environment) (name : String) : Option Function := env.functions.get? name

theorem findFunction_withFunction (env : Environment) (name : String) (f : Function) (n : String) :
    (env.withFunction name f).findFunction n =
      if n = name then some f else env.findFunction n :=
  NameMap.get?_insert env.functions name f n

theorem forall_withFunction {P : Function → Prop} {env : Environment} (name : String)
    {f : Function} (hf : P f) (h : ∀ n g, env.findFunction n = some g → P g) :
    ∀ n g, (env.withFunction name f).findFunction n = some g → P g := by
  intro n g hg
  rw [findFunction_withFunction] at hg
  by_cases hn : n = name
  · rw [if_pos hn] at hg
    cases hg
    exact hf
  · rw [if_neg hn] at hg
    exact h n g hg

theorem findVariable_extend (env other : Environment) (name : String) :
    (env.extend other).findVariable name = (other.findVariable name).or (env.findVariable name) :=
  NameMap.get?_extend env.vars other.vars name

theorem findFunction_extend (env other : Environment) (name : String) :
    (env.extend other).findFunction name = (other.findFunction name).or (env.findFunction name) :=
  NameMap.get?_extend env.functions other.functions name

end Environment
end JsonPath
