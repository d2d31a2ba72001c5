import JsonPath.IRegexp

set_option autoImplicit false

/-!
# Laws of engines

What the syntax of regular expressions promises about the parts of the wrapper that makes a pattern
match whole texts: the assertions of the start and of the end, and a group that has no name and
remembers nothing. Parentheses make groups, and a parenthesis that closes no group is an error,
except in a comment. The laws are about the texts of patterns alone, so nothing is said about how an
engine reads them.
-/
namespace JsonPath.IRegexp.Engine

variable (engine : Engine)

/-- The text spells a pattern. -/
def Reads (text : List Char) : Prop := (engine.read? text).isSome = true

/-- If the first text spells a pattern, so does the second, and it matches no more. -/
def Narrows (text text' : List Char) : Prop :=
  ∀ regex, engine.read? text = some regex → ∃ regex', engine.read? text' = some regex' ∧
    ∀ subject, regex'.matchesIn subject = true → regex.matchesIn subject = true

/-- The text spells a pattern, and a parenthesis behind it is one that closes a group around it. -/
def Groupable (text : List Char) : Prop := engine.Reads text ∧ ¬ engine.Reads (text ++ [')'])

structure Lawful : Prop where
  /-- An assertion of the start may stand in front of any pattern. -/
  start : ∀ text, engine.Narrows text (['\\', 'A'] ++ text)
  /-- An assertion of the end may stand behind any pattern, where it may be in a comment. -/
  stop : ∀ text, engine.Narrows text (text ++ ['\\', 'z'])
  /-- A group matches what is in it. -/
  group : ∀ text, engine.Groupable text → engine.Narrows text (['(', '?', ':'] ++ text ++ [')'])
  /-- A group that is opened is closed, and what is in it spells a pattern. -/
  content : ∀ text, engine.Reads (['\\', 'A', '(', '?', ':'] ++ text) →
    ∃ inside rest, text = inside ++ ')' :: rest ∧ engine.Groupable inside
  /-- A parenthesis that closes no group is an error, whatever follows. -/
  unopened : ∀ inside rest, engine.Groupable inside → ¬ engine.Reads (inside ++ ')' :: rest)
  /-- It is none in a comment, and comments begin with a number sign. -/
  comment : ∀ text, engine.Reads text → engine.Reads (text ++ [')']) → '#' ∈ text

end JsonPath.IRegexp.Engine
