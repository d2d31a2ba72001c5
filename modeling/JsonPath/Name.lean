import JsonPath.Digit

set_option autoImplicit false

/-!
# Member names in query text

A name that looks like an identifier may follow a dot as it is; any other name is quoted. `quoted`
is the one spelling used in normalized paths and canonical queries.
-/
namespace JsonPath.Name

/-- ASCII letters, the underscore and every character outside ASCII. -/
def isFirst (c : Char) : Bool := c.isAlpha || c == '_' || '\x80' ≤ c

def isLater (c : Char) : Bool := isFirst c || c.isDigit

def isShorthand : List Char → Bool
  | [] => false
  | c :: rest => isFirst c && rest.all isLater

def spelling (c : Char) : List Char :=
  match c with
  | '\'' => ['\\', '\'']
  | '\\' => ['\\', '\\']
  | '\x08' => ['\\', 'b']
  | '\x0c' => ['\\', 'f']
  | '\n' => ['\\', 'n']
  | '\r' => ['\\', 'r']
  | '\t' => ['\\', 't']
  | c =>
    if c < ' ' then
      ['\\', 'u', '0', '0', Digit.hexChar (c.toNat / 16), Digit.hexChar c.toNat]
    else [c]

def quotedChars (name : String) : List Char :=
  '\'' :: (name.toList.flatMap spelling ++ ['\''])

def quoted (name : String) : String := String.ofList (quotedChars name)

end JsonPath.Name
