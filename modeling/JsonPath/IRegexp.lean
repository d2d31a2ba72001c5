set_option autoImplicit false

/-!
# Patterns in filters

The functions `match` and `search` take patterns in the manner of I-Regexp (RFC 9485), in which a
dot stands for any character but a line break. The text of a pattern is first respelt to say so, and
for `match` it is put between assertions of the start and the end. What the text that results means
is left to an engine for regular expressions.
-/
namespace JsonPath.IRegexp

/-- What is asked of a pattern once an engine has read it. -/
structure Regex where
  /-- Some part of the text matches. -/
  matchesIn : List Char → Bool
  /-- Neither the nesting of the pattern nor its size is beyond what the engine takes. -/
  fits : Bool

/-- An engine for regular expressions. -/
structure Engine where
  /-- The pattern that a text spells, if it spells one. -/
  read? : List Char → Option Regex

/-- Whether a pattern has to match the whole of a text or some part of it. -/
inductive Scope where
  | whole
  | part
  deriving DecidableEq

def notLineBreak : List Char := ['[', '^', '\\', 'n', '\\', 'r', ']']

/-- Spells out the dots that are neither escaped nor between a bracket and the next closing one. -/
def spellDots (inClass : Bool) : List Char → List Char
  | [] => []
  | '\\' :: c :: rest => '\\' :: c :: spellDots inClass rest
  | c :: rest =>
    if inClass then c :: spellDots (c != ']') rest
    else if c = '.' then notLineBreak ++ spellDots false rest
    else c :: spellDots (c == '[') rest

def anchored (pattern : List Char) : List Char :=
  ['\\', 'A', '(', '?', ':'] ++ pattern ++ [')', '\\', 'z']

/-- The text that is read as a pattern. -/
def spelling (pattern : List Char) (scope : Scope) : List Char :=
  match scope with
  | .whole => anchored (spellDots false pattern)
  | .part => spellDots false pattern

namespace Engine

def regex? (engine : Engine) (text : List Char) : Option Regex :=
  (engine.read? text).filter Regex.fits

/-- The pattern that a text stands for, if it is valid. -/
def compile (engine : Engine) (pattern : String) (scope : Scope) : Option Regex :=
  engine.regex? (spelling pattern.toList scope)

/-- Whether a text matches a pattern. No text matches one that is not valid. -/
def test (engine : Engine) (text pattern : String) (scope : Scope) : Bool :=
  match engine.compile pattern scope with
  | some regex => regex.matchesIn text.toList
  | none => false

end Engine
end JsonPath.IRegexp
