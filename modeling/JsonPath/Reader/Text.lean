import JsonPath.Reader
import JsonPath.SyntaxError

set_option autoImplicit false

/-!
# Reading query text

A failure remembers the text from the point where it arose, which gives its position. The readers
here are for what all parts of the grammar share: single characters, blanks and lists.
-/
namespace JsonPath

structure Failure where
  /-- The text from the point of failure on. -/
  rest : List Char
  cause : SyntaxError.Cause

abbrev QueryReader := Reader Failure

namespace Reader

variable {α : Type}

def unexpectedAt : List Char → Failure
  | [] => ⟨[], .unexpectedEnd⟩
  | c :: rest => ⟨c :: rest, .unexpectedCharacter c⟩

def noSelectorAt : List Char → Failure
  | [] => ⟨[], .unexpectedEnd⟩
  | c :: rest => ⟨c :: rest, .invalidSelector c⟩

def failAt (rest : List Char) (cause : SyntaxError.Cause) : QueryReader α := fail ⟨rest, cause⟩

def unexpected : QueryReader α := do fail (unexpectedAt (← remaining))

def noSelector : QueryReader α := do fail (noSelectorAt (← remaining))

def next : QueryReader Char := satisfy (fun _ => true) unexpectedAt

def expect (c : Char) : QueryReader Unit := do
  let _ ← satisfy (· == c) unexpectedAt

theorem strict_next : next.Strict := strict_satisfy _ _

theorem strict_expect (c : Char) : (expect c).Strict := (strict_satisfy _ _).bind_left _

def isBlank (c : Char) : Bool := c == ' ' || c == '\t' || c == '\n' || c == '\r'

def blanks : QueryReader Unit := do
  let _ ← takeWhile isBlank

def commaFollows (input : List Char) : Bool := (input.dropWhile isBlank).head? == some ','

def afterComma (item : QueryReader α) : QueryReader α := do
  blanks
  expect ','
  blanks
  item

theorem strict_afterComma (item : QueryReader α) : (afterComma item).Strict :=
  Strict.bind_right _ fun _ => Strict.bind_left (strict_expect ',') _

def commaList (item : QueryReader α) : QueryReader (List α) := do
  let first ← item
  let later ← many commaFollows (afterComma item) (strict_afterComma item)
  pure (first :: later)

def byteLength (chars : List Char) : Nat := chars.foldr (fun c n => c.utf8Size + n) 0

/-- Runs a reader on a whole text; the position of a failure is counted from its start. -/
def parse (p : QueryReader α) (text : String) : Except SyntaxError α :=
  match p.run text.toList with
  | .ok (a, _) => .ok a
  | .error e => .error ⟨byteLength text.toList - byteLength e.rest, e.cause⟩

end Reader
end JsonPath
