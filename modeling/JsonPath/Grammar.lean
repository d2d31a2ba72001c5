import JsonPath.Name
import JsonPath.Reader.Literal
import JsonPath.Syntax.Text

set_option autoImplicit false

/-!
# The grammar of queries

Strict mode reads what RFC 9535 allows, with arithmetic, negation and variables added to its
filters. Lenient mode also allows blanks around a query, dashes in names after a dot, other
spellings of numbers, either quote escaped in a string, and any query as an operand of a comparison.

Constructs that nest are read one level deeper by the readers in a `Nested`, and no level is left
after `maxNesting` of them.
-/
namespace JsonPath.Grammar
open Reader

/-- The readers of what stands one nesting level deeper. -/
structure Nested where
  expression : QueryReader Expr
  unary : QueryReader Expr
  arguments : QueryReader (List Expr)

def Nested.tooDeep : Nested where
  expression := do failAt (← remaining) .nestingTooDeep
  unary := do failAt (← remaining) .nestingTooDeep
  arguments := do failAt (← remaining) .nestingTooDeep

section
variable (mode : Mode)

/-- A member name after a dot. -/
def shorthandName : QueryReader String := do
  let name ← takeWhile fun c => Name.isLater c || (mode = .lenient && c == '-')
  pure (String.ofList name)

def colonFollows (input : List Char) : Bool := (input.dropWhile isBlank).head? == some ':'

def colon : QueryReader Unit := do
  blanks
  expect ':'
  blanks

def indexOrSlice : QueryReader Selector := do
  let start ← optionalIndex mode
  if colonFollows (← remaining) then do
    colon
    let stop ← optionalIndex mode
    if colonFollows (← remaining) then do
      colon
      .slice start stop <$> optionalIndex mode
    else pure (.slice start stop none)
  else
    match start with
    | some i => pure (.index i)
    | none => noSelector

end

section
variable (mode : Mode) (inner : Nested)

def selector : QueryReader Selector := do
  match ← peek with
  | some '*' => do
    skip 1
    pure .wildcard
  | some '?' => do
    skip 1
    blanks
    .filter <$> inner.expression
  | some c =>
    if c = '\'' || c = '"' then .member <$> stringLiteral mode
    else if c = '-' || c = ':' || c.isDigit then indexOrSlice mode
    else noSelector
  | none => noSelector

/-- Selectors in brackets; there has to be one at least. -/
def bracketed : QueryReader (List Selector) := do
  let start ← remaining
  expect '['
  blanks
  match ← peek with
  | some ']' => failAt start .emptyBracket
  | _ => do
    let selectors ← commaList (selector mode inner)
    blanks
    expect ']'
    pure selectors

theorem strict_bracketed : (bracketed mode inner).Strict :=
  Strict.bind_right _ fun _ => Strict.bind_left (strict_expect '[') _

/-- What may stand after one dot or two: a name or a wildcard, and after two also a bracket. -/
def dotted (descendant : Bool) : QueryReader (List Selector) := do
  match ← peek with
  | some '*' => do
    skip 1
    pure [.wildcard]
  | some c =>
    if descendant && c = '[' then bracketed mode inner
    else if Name.isFirst c then (fun name => [.member name]) <$> shorthandName mode
    else noSelector
  | none => noSelector

def segmentFollows (input : List Char) : Bool :=
  (input.dropWhile isBlank).head?.any fun c => c == '.' || c == '['

/-- A segment and the blanks before it. -/
def segment : QueryReader Segment := do
  blanks
  match ← peek with
  | some '.' => do
    expect '.'
    if ← accept '.' then .descendants <$> dotted mode inner true
    else .children <$> dotted mode inner false
  | _ => .children <$> bracketed mode inner

theorem strict_segment : (segment mode inner).Strict := by
  refine Strict.bind_right _ fun _ => Strict.bind_right _ fun c => ?_
  split
  · exact Strict.bind_left (strict_expect '.') _
  · exact (strict_bracketed mode inner).map _

/-- Segments for as long as they follow. Blanks are read only before a segment. -/
def segments : QueryReader (List Segment) :=
  many segmentFollows (segment mode inner) (strict_segment mode inner)

/-- A query inside a filter, from after its first character. -/
def embedded (start : Start) : QueryReader Expr := do
  let s ← segments mode inner
  pure (Expr.ofPath ⟨start, s⟩)

def keyword (name : String) : Expr :=
  if name = "true" then .bool true
  else if name = "false" then .bool false
  else if name = "null" then .null
  else .variable name

/-- A literal that is a word, a variable, or a call. -/
def named : QueryReader Expr := do
  let name ← takeWhile Name.isLater
  if (← peek) == some '(' then .call (String.ofList name) <$> inner.arguments
  else pure (keyword (String.ofList name))

def primary : QueryReader Expr := do
  match ← peek with
  | some '(' => do
    skip 1
    blanks
    let e ← inner.expression
    blanks
    expect ')'
    pure e
  | some '$' => do
    skip 1
    embedded mode inner .root
  | some '@' => do
    skip 1
    embedded mode inner .current
  | some c =>
    if c = '\'' || c = '"' then .string <$> stringLiteral mode
    else if c.isDigit then number mode
    else if Name.isFirst c then named inner
    else unexpected
  | none => unexpected

/-- A minus sign belongs to the number that it stands directly before. -/
def signedNumberFollows : List Char → Bool
  | '-' :: c :: _ => c.isDigit
  | _ => false

def unary : QueryReader Expr := do
  let input ← remaining
  match input.head? with
  | some '!' => do
    skip 1
    blanks
    .not <$> inner.unary
  | some '-' =>
    if signedNumberFollows input then number mode
    else do
      skip 1
      blanks
      .negate <$> inner.unary
  | _ => primary mode inner

def operator? : List Char → Option BinaryOp
  | '|' :: '|' :: _ => some .or
  | '&' :: '&' :: _ => some .and
  | '=' :: '=' :: _ => some .equal
  | '!' :: '=' :: _ => some .notEqual
  | '<' :: '=' :: _ => some .lessOrEqual
  | '>' :: '=' :: _ => some .greaterOrEqual
  | '<' :: _ => some .less
  | '>' :: _ => some .greater
  | '+' :: _ => some .add
  | '-' :: _ => some .subtract
  | '*' :: _ => some .multiply
  | '/' :: _ => some .divide
  | _ => none

def operatorFollows (level : Nat) (input : List Char) : Bool :=
  (operator? (input.dropWhile isBlank)).any fun op => op.level == level

def operator : QueryReader BinaryOp := do
  match operator? (← remaining) with
  | some op => do
    let _ ← next
    skip (op.chars.length - 1)
    pure op
  | none => do
    let _ ← next
    unexpected

theorem strict_operator : operator.Strict := by
  refine Strict.bind_right _ fun input => ?_
  split
  · exact Strict.bind_left strict_next _
  · exact Strict.bind_left strict_next _

def requireSingular (start : List Char) : Expr → QueryReader Unit
  | .query p => failAt start (.nonSingularQuery p.text)
  | _ => pure ()

/-- An operator and its right operand. By the standard both operands of a comparison select at most
one node; the left one is the first operand of the chain or a comparison itself. -/
def operation (operand : QueryReader Expr) (start : List Char) (first : Expr) :
    QueryReader (BinaryOp × Expr) := do
  blanks
  let op ← operator
  blanks
  let rightStart ← remaining
  let right ← operand
  if mode = .strict && op.isComparison then do
    requireSingular start first
    requireSingular rightStart right
    pure (op, right)
  else pure (op, right)

theorem strict_operation (operand : QueryReader Expr) (start : List Char) (first : Expr) :
    (operation mode operand start first).Strict :=
  Strict.bind_right _ fun _ => Strict.bind_left strict_operator _

/-- Operands joined by the operators of one level, which associate to the left. -/
def chain (level : Nat) (operand : QueryReader Expr) : QueryReader Expr := do
  let start ← remaining
  let first ← operand
  let later ← many (operatorFollows level) (operation mode operand start first)
    (strict_operation mode operand start first)
  pure (later.foldl (fun left later => .binary later.1 left later.2) first)

def expression : QueryReader Expr :=
  chain mode 0 (chain mode 1 (chain mode 2 (chain mode 3 (chain mode 4 (unary mode inner)))))

def arguments : QueryReader (List Expr) := do
  expect '('
  blanks
  match ← peek with
  | some ')' => do
    skip 1
    pure []
  | _ => do
    let args ← commaList (expression mode inner)
    blanks
    expect ')'
    pure args

end

/-- The readers for constructs inside others, when `levels` more may be entered. -/
def nested (mode : Mode) : Nat → Nested
  | 0 => .tooDeep
  | levels + 1 =>
    let inner := nested mode levels
    ⟨expression mode inner, unary mode inner, arguments mode inner⟩

def lenientBlanks : Mode → QueryReader Unit
  | .strict => pure ()
  | .lenient => blanks

/-- A whole text that is a query. -/
def query (mode : Mode) : QueryReader Path := do
  lenientBlanks mode
  if (← accept '$') then do
    let s ← segments mode (nested mode maxNesting)
    lenientBlanks mode
    match ← remaining with
    | [] => pure ⟨.root, s⟩
    | c :: rest => failAt (c :: rest) (.trailingInput (String.ofList (c :: rest)))
  else failAt (← remaining) .missingRoot

end JsonPath.Grammar

namespace JsonPath

def Path.parse (text : String) (mode : Mode) : Except SyntaxError Path :=
  (Grammar.query mode).parse text

end JsonPath
