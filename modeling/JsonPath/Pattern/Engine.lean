import JsonPath.IRegexp
import JsonPath.Pattern.Grammar
import JsonPath.Pattern.Matching

set_option autoImplicit false

/-!
# An engine for patterns

Reading and matching of patterns make an engine. Of named properties it knows the general categories
and a few more, and it bounds how deeply constructs nest but not their size.
-/
namespace JsonPath.Pattern

def maxDepth : Nat := 250

def engine : IRegexp.Engine where
  read? text := (read? text).map fun e => ⟨e.pattern.matchesIn, e.depth ≤ maxDepth⟩

end JsonPath.Pattern
