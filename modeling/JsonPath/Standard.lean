import JsonPath.BuiltIn
import JsonPath.Pattern.Engine

set_option autoImplicit false

/-!
# The standard environment

Nothing else depends on which engine reads the patterns. This is the one that runs.
-/
namespace JsonPath

def IRegexp.compile (pattern : String) (scope : Scope) : Option Regex :=
  Pattern.engine.compile pattern scope

/-- The built-in functions and no variables. -/
def Environment.standard : Environment := .builtIns Pattern.engine

end JsonPath
