import JsonPath.IRegexp

set_option autoImplicit false

/-!
# A cache of compiled patterns

A cache answers what compiling answers and remembers a bounded number of answers, also for patterns
that are not valid. When it is full, a new answer takes the place of the one that came in earliest.
-/
namespace JsonPath.IRegexp

/-- How many answers a cache holds. -/
def cacheCapacity : Nat := 256

structure Cache (α : Type) where
  /-- The patterns with their scopes and what they compile to, earliest first. -/
  entries : List ((String × Scope) × α)

namespace Cache

variable {α : Type}

def empty : Cache α := ⟨[]⟩

/-- Makes room for one more entry. -/
def trimmed (cache : Cache α) : Cache α :=
  if cacheCapacity ≤ cache.entries.length then ⟨cache.entries.drop 1⟩ else cache

def add (cache : Cache α) (key : String × Scope) (compiled : α) : Cache α :=
  ⟨cache.trimmed.entries ++ [(key, compiled)]⟩

/-- Looks a pattern up, or compiles and remembers it. -/
def compile (compiler : String → Scope → α) (cache : Cache α) (pattern : String) (scope : Scope) :
    α × Cache α :=
  match cache.entries.lookup (pattern, scope) with
  | some compiled => (compiled, cache)
  | none =>
    let compiled := compiler pattern scope
    (compiled, cache.add (pattern, scope) compiled)

end Cache
end JsonPath.IRegexp
