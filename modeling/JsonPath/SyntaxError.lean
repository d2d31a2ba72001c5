set_option autoImplicit false

/-!
# Why a text is not a query

A `SyntaxError` says where reading stopped, as a byte offset into the text, and what was wrong
there.
-/
namespace JsonPath

/-- How many filters, parentheses, calls and prefix operators may stand inside one another. -/
def maxNesting : Nat := 128

namespace SyntaxError

inductive Cause where
  | unexpectedCharacter (found : Char)
  | unexpectedEnd
  | malformedInteger (literal : String)
  | malformedNumber (literal : String)
  | unterminatedString
  | invalidEscape (spelling : String)
  | nonSingularQuery (query : String)
  | emptyBracket
  | invalidSelector (found : Char)
  | missingRoot
  | trailingInput (remainder : String)
  | nestingTooDeep
  deriving DecidableEq

end SyntaxError

structure SyntaxError where
  position : Nat
  cause : SyntaxError.Cause
  deriving DecidableEq

namespace SyntaxError

def quoting (s : String) : String := "'" ++ s ++ "'"

def message (e : SyntaxError) : String :=
  let place := "at offset " ++ toString e.position
  match e.cause with
  | .unexpectedCharacter c => "unexpected character " ++ quoting c.toString ++ " " ++ place
  | .unexpectedEnd => "unexpected end of query " ++ place
  | .malformedInteger s => "malformed integer " ++ quoting s ++ " " ++ place
  | .malformedNumber s => "malformed number " ++ quoting s ++ " " ++ place
  | .unterminatedString => "unterminated string literal starting " ++ place
  | .invalidEscape s => "invalid escape sequence " ++ quoting s ++ " " ++ place
  | .nonSingularQuery q =>
    "query " ++ quoting q ++ " " ++ place ++ " is not singular and cannot be compared"
  | .emptyBracket => "empty bracketed selection " ++ place
  | .invalidSelector c => quoting c.toString ++ " " ++ place ++ " does not start a selector"
  | .missingRoot => "a query must start with '$' (offset " ++ toString e.position ++ ")"
  | .trailingInput s => "unexpected trailing input " ++ quoting s ++ " " ++ place
  | .nestingTooDeep =>
    "expression nesting exceeds " ++ toString maxNesting ++ " levels " ++ place

end SyntaxError
end JsonPath
