import JsonPath.Decimal
import JsonPath.Digit
import JsonPath.Reader.Text
import JsonPath.Syntax
import JsonPath.Word

set_option autoImplicit false

/-!
# Literals in query text

Indices, numbers and quoted strings. A literal that is malformed as a whole is reported where it
begins.
-/
namespace JsonPath.Reader

/-- The largest magnitude an index may have by the standard, one less than 2 to the 53. -/
def maxExact : Nat := 9007199254740991

def digits : QueryReader (List Char) := takeWhile Char.isDigit

def signed (negative : Bool) (ds : List Char) : Int :=
  if negative then -(Digit.value ds : Int) else Digit.value ds

def signChars (negative : Bool) : List Char := if negative then ['-'] else []

def hasLeadingZero : List Char → Bool
  | '0' :: _ :: _ => true
  | _ => false

/-- All that could be meant as one number, for diagnostics. -/
def numberLike (input : List Char) : List Char :=
  input.takeWhile fun c => c.isAlphanum || c == '-' || c == '+' || c == '.'

/-- The standard asks for one spelling of each index and for indices that floats represent. -/
def indexAllowed (mode : Mode) (negative : Bool) (ds : List Char) : Bool :=
  Word.fits (signed negative ds) &&
    (mode = .lenient || (!(negative && ds == ['0']) && !hasLeadingZero ds &&
      (signed negative ds).natAbs ≤ maxExact))

def index (mode : Mode) : QueryReader Int := do
  let input ← remaining
  let negative ← accept '-'
  let ds ← digits
  if ds.isEmpty then failAt input (.malformedInteger (String.ofList (numberLike input)))
  else if indexAllowed mode negative ds then pure (signed negative ds)
  else failAt input (.malformedInteger (String.ofList (signChars negative ++ ds)))

def startsIndex (input : List Char) : Bool := input.head?.any fun c => c == '-' || c.isDigit

def optionalIndex (mode : Mode) : QueryReader (Option Int) := do
  let input ← remaining
  if startsIndex input then some <$> index mode else pure none

def fraction : QueryReader (List Char) := do
  match ← remaining with
  | '.' :: c :: _ =>
    if c.isDigit then do
      skip 1
      digits
    else pure []
  | _ => pure []

def isExponentMark (c : Char) : Bool := c == 'e' || c == 'E'

def exponentFollows : List Char → Bool
  | mark :: '+' :: c :: _ => isExponentMark mark && c.isDigit
  | mark :: '-' :: c :: _ => isExponentMark mark && c.isDigit
  | mark :: c :: _ => isExponentMark mark && c.isDigit
  | _ => false

def exponent : QueryReader (Option Int) := do
  if exponentFollows (← remaining) then do
    skip 1
    let negative ← accept '-'
    let _ ← accept '+'
    let ds ← digits
    pure (some (signed negative ds))
  else pure none

def isFloatMark (c : Char) : Bool := c == '.' || isExponentMark c

/-- The float nearest to a numeral; a minus sign gives a negative zero too. -/
def floatOf (negative : Bool) (whole frac : List Char) (exp : Int) : Float :=
  let magnitude := Decimal.toFloat ⟨Digit.value (whole ++ frac), exp - frac.length⟩
  if negative then -magnitude else magnitude

/-- A number in a filter. A numeral without fraction and exponent is an integer if it fits 64 bits
and a float otherwise. -/
def number (mode : Mode) : QueryReader Expr := do
  let input ← remaining
  let negative ← accept '-'
  let whole ← digits
  if whole.isEmpty then failAt input (.malformedNumber (String.ofList (numberLike input)))
  else do
    let frac ← fraction
    let exp ← exponent
    let rest ← remaining
    let isFloat := !frac.isEmpty || exp.isSome
    if rest.head?.any isFloatMark || (mode = .strict && hasLeadingZero whole) then
      let literal := numberLike input
      if isFloat || literal.any isFloatMark then
        failAt input (.malformedNumber (String.ofList literal))
      else failAt input (.malformedInteger (String.ofList literal))
    else if !isFloat && Word.fits (signed negative whole) then
      pure (.integer (signed negative whole))
    else
      let x := floatOf negative whole frac (exp.getD 0)
      if x.isFinite then pure (.float x)
      else
        let literal := input.take (input.length - rest.length)
        failAt input (.malformedNumber (String.ofList literal))

def fourHex? : List Char → Option Nat
  | a :: b :: c :: d :: _ => do
    let a ← Digit.hexValue? a
    let b ← Digit.hexValue? b
    let c ← Digit.hexValue? c
    let d ← Digit.hexValue? d
    pure (((a * 16 + b) * 16 + c) * 16 + d)
  | _ => none

def isHighSurrogate (code : Nat) : Bool := 0xD800 ≤ code && code ≤ 0xDBFF

def isLowSurrogate (code : Nat) : Bool := 0xDC00 ≤ code && code ≤ 0xDFFF

def joinSurrogates (high low : Nat) : Nat := 0x10000 + (high - 0xD800) * 0x400 + (low - 0xDC00)

/-- The character meant by the hexadecimal digits after `\u`, and how many characters spell it. A
high surrogate needs the escape of a low one directly after it. -/
def unicode? (input : List Char) : Option (Char × Nat) := do
  let code ← fourHex? input
  if isHighSurrogate code then
    match input.drop 4 with
    | '\\' :: 'u' :: more =>
      let low ← fourHex? more
      if isLowSurrogate low then some (Char.ofNat (joinSurrogates code low), 10) else none
    | _ => none
  else if isLowSurrogate code then none
  else some (Char.ofNat code, 4)

def shortEscape? (mode : Mode) (quote c : Char) : Option Char :=
  match c with
  | 'b' => some '\x08'
  | 'f' => some '\x0c'
  | 'n' => some '\n'
  | 'r' => some '\r'
  | 't' => some '\t'
  | '/' => some '/'
  | '\\' => some '\\'
  | c =>
    if c = quote || (mode = .lenient && (c = '\'' || c = '"')) then some c else none

/-- Decodes an escape sequence, whose backslash is next. -/
def escape (mode : Mode) (quote : Char) : QueryReader Char := do
  let start ← remaining
  let _ ← next
  match ← remaining with
  | [] => failAt start .unterminatedString
  | 'u' :: code =>
    match unicode? code with
    | some (c, n) => do
      skip (n + 1)
      pure c
    | none => failAt start (.invalidEscape (String.ofList (start.take 12)))
  | c :: _ =>
    match shortEscape? mode quote c with
    | some d => do
      skip 1
      pure d
    | none => failAt start (.invalidEscape (String.ofList ['\\', c]))

theorem strict_escape (mode : Mode) (quote : Char) : (escape mode quote).Strict :=
  Strict.bind_right _ fun _ => Strict.bind_left strict_next _

/-- One character of a string, spelt as itself or by an escape sequence. -/
def stringChar (mode : Mode) (quote : Char) : QueryReader Char := do
  match ← peek with
  | some '\\' => escape mode quote
  | _ => next

theorem strict_stringChar (mode : Mode) (quote : Char) : (stringChar mode quote).Strict := by
  refine Strict.bind_right _ fun c => ?_
  split
  · exact strict_escape mode quote
  · exact strict_next

def stringGoesOn (quote : Char) (input : List Char) : Bool :=
  input.head?.any fun c => c != quote && ' ' ≤ c

def stringLiteral (mode : Mode) : QueryReader String := do
  let start ← remaining
  let quote ← next
  let chars ← many (stringGoesOn quote) (stringChar mode quote) (strict_stringChar mode quote)
  match ← remaining with
  | [] => failAt start .unterminatedString
  | c :: _ =>
    if c = quote then do
      skip 1
      pure (String.ofList chars)
    else unexpected

end JsonPath.Reader
