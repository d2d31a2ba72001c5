import JsonPath.Digit
import JsonPath.Pattern
import JsonPath.Reader

set_option autoImplicit false

/-!
# Escape sequences and flags in patterns

What the text of a pattern shares between its parts: the flags in force, the gaps that the extended
syntax allows between characters, and escape sequences. A pattern is valid or not; there is nothing
more to say about one that is not.
-/
namespace JsonPath.Pattern
open Reader

abbrev PatternReader := Reader Unit

structure Flags where
  insensitive : Bool
  multiline : Bool
  /-- A dot stands for line feeds too. -/
  dotAll : Bool
  /-- Lines may end with a carriage return. -/
  carriage : Bool
  unicode : Bool
  /-- White space and comments do not count. -/
  extended : Bool

namespace Flags

def initial : Flags := ⟨false, false, false, false, true, false⟩

def fold (flags : Flags) (s : CharSet) : CharSet :=
  if flags.insensitive then
    if flags.unicode then s.folded else s.foldedAscii
  else s

def word (flags : Flags) : CharSet := if flags.unicode then Unicode.isWord else .asciiWord

/-- Flips a set for a negated class. Without Unicode no set may go beyond ASCII. -/
def negate (flags : Flags) (negated : Bool) (s : CharSet) : PatternReader CharSet :=
  if negated then
    if flags.unicode then pure s.complement else fail ()
  else pure s

end Flags

section
variable {α : Type}

def invalid : PatternReader α := fail ()

def nextChar : PatternReader Char := satisfy (fun _ => true) fun _ => ()

theorem strict_nextChar : nextChar.Strict := strict_satisfy _ _

def expectChar (c : Char) : PatternReader Unit := do
  let _ ← satisfy (· == c) fun _ => ()

end

/-- Drops white space and comments, which go from a number sign to the end of the line. -/
def dropGaps (inComment : Bool) : List Char → List Char
  | [] => []
  | c :: rest =>
    if inComment then dropGaps (c != '\n') rest
    else if Unicode.isWhite c then dropGaps false rest
    else if c = '#' then dropGaps true rest
    else c :: rest

theorem dropGaps_suffix (inComment : Bool) (input : List Char) :
    dropGaps inComment input <:+ input := by
  induction input generalizing inComment with
  | nil => exact List.suffix_refl _
  | cons c rest ih =>
    unfold dropGaps
    split
    · exact (ih _).trans (List.suffix_cons _ _)
    · split
      · exact (ih _).trans (List.suffix_cons _ _)
      · split
        · exact (ih _).trans (List.suffix_cons _ _)
        · exact List.suffix_refl _

def gaps (flags : Flags) : PatternReader Unit where
  run input := .ok ((), if flags.extended then dropGaps false input else input)
  rest_suffix {input _ _} h := by
    cases h
    split
    · exact dropGaps_suffix false input
    · exact List.suffix_refl _

def spaced (flags : Flags) : PatternReader Char := do
  let c ← nextChar
  gaps flags
  pure c

theorem strict_spaced (flags : Flags) : (spaced flags).Strict := strict_nextChar.bind_left _

def spacedUntil (flags : Flags) (stop : Char) : PatternReader (List Char) := do
  let cs ← many (fun input => input.head?.any (· != stop)) (spaced flags) (strict_spaced flags)
  expectChar stop
  pure cs

def charOfHex (digits : List Char) : PatternReader Char :=
  match digits.mapM Digit.hexValue? with
  | some values =>
    let code := values.foldl (fun n d => 16 * n + d) 0
    if values ≠ [] ∧ code.isValidChar then pure (Char.ofNat code) else invalid
  | none => invalid

def spacedTimes (flags : Flags) : Nat → PatternReader (List Char)
  | 0 => pure []
  | n + 1 => do
    let c ← spaced flags
    let cs ← spacedTimes flags n
    pure (c :: cs)

/-- A code point: so many hexadecimal digits, or any number of them in braces. -/
def hexadecimal (flags : Flags) (count : Nat) : PatternReader Char := do
  gaps flags
  if ← accept '\x7b' then do
    gaps flags
    let digits ← spacedUntil flags '\x7d'
    gaps flags
    charOfHex digits
  else do
    let digits ← spacedTimes flags count
    charOfHex digits

def splitAt? (separator : List Char) : List Char → Option (List Char × List Char)
  | [] => none
  | c :: rest =>
    if separator.isPrefixOf (c :: rest) then some ([], (c :: rest).drop separator.length)
    else (splitAt? separator rest).map fun parts => (c :: parts.1, parts.2)

/-- The value of a named property; the general category is the only property with values here. -/
def propertyValue (name value : List Char) : PatternReader CharSet :=
  let property := Unicode.looseName name
  if property = "gc" ∨ property = "generalcategory" then
    match Unicode.generalCategory? (Unicode.looseName value) with
    | some s => pure s
    | none => invalid
  else invalid

def propertyNamed (flags : Flags) (negated : Bool) (name : List Char) : PatternReader CharSet := do
  if let some (name, value) := splitAt? ['!', '='] name then
    let s ← propertyValue name value
    flags.negate (!negated) (flags.fold s)
  else if let some (name, value) := splitAt? [':'] name then
    let s ← propertyValue name value
    flags.negate negated (flags.fold s)
  else if let some (name, value) := splitAt? ['='] name then
    let s ← propertyValue name value
    flags.negate negated (flags.fold s)
  else
    match Unicode.generalCategory? (Unicode.looseName name) with
    | some s => flags.negate negated (flags.fold s)
    | none => invalid

/-- A property in braces, or named by one letter. -/
def property (flags : Flags) (negated : Bool) : PatternReader CharSet := do
  if flags.unicode then do
    gaps flags
    if ← accept '\x7b' then do
      gaps flags
      propertyNamed flags negated (← spacedUntil flags '\x7d')
    else do
      let c ← spaced flags
      if c = '\\' then invalid else propertyNamed flags negated [c]
  else invalid

inductive Primitive where
  | literal (c : Char)
  | set (s : CharSet)
  | assertion (a : Assertion)

def isMeta (c : Char) : Bool := "\\.+*?()|[]\x7b\x7d^$#&-~".toList.contains c

/-- All of ASCII may be escaped, except letters and digits and the two angles. -/
def isEscapable (c : Char) : Bool :=
  isMeta c || (c.toNat < 128 && !c.isAlphanum && c != '<' && c != '>')

def isBoundaryName (c : Char) : Bool := c.isAlpha || c == '-'

/-- What may stand in braces after `\b`. Anything else in braces is left for a repetition. -/
def boundary (flags : Flags) : PatternReader Assertion := do
  let input ← remaining
  match input with
  | '\x7b' :: rest =>
    let inside := if flags.extended then dropGaps false rest else rest
    match inside with
    | [] => invalid
    | c :: _ =>
      if isBoundaryName c then do
        expectChar '\x7b'
        gaps flags
        let name ← many (fun input => input.head?.any isBoundaryName) (spaced flags)
          (strict_spaced flags)
        expectChar '\x7d'
        if name = "start".toList then pure (.wordStart flags.word)
        else if name = "end".toList then pure (.wordStop flags.word)
        else if name = "start-half".toList then pure (.wordStartHalf flags.word)
        else if name = "end-half".toList then pure (.wordStopHalf flags.word)
        else invalid
      else pure (.boundary flags.word)
  | _ => pure (.boundary flags.word)

def decimalDigits (flags : Flags) : CharSet :=
  if flags.unicode then Unicode.isDecimal else Char.isDigit

def whiteSpace (flags : Flags) : CharSet :=
  if flags.unicode then Unicode.isWhite else .ranges [0x9, 0xd, 0x20, 0x20]

/-- What follows a backslash. -/
def escaped (flags : Flags) : PatternReader Primitive := do
  let c ← nextChar
  match c with
  | 'x' => do
    let twoDigits := (← remaining).head? != some '\x7b'
    let c ← hexadecimal flags 2
    -- without Unicode two digits mean a byte, and bytes beyond ASCII are no characters
    if twoDigits && !flags.unicode && 128 ≤ c.toNat then invalid else pure (.literal c)
  | 'u' => .literal <$> hexadecimal flags 4
  | 'U' => .literal <$> hexadecimal flags 8
  | 'p' => .set <$> property flags false
  | 'P' => .set <$> property flags true
  | 'd' => pure (.set (decimalDigits flags))
  | 'D' => .set <$> flags.negate true (decimalDigits flags)
  | 's' => pure (.set (whiteSpace flags))
  | 'S' => .set <$> flags.negate true (whiteSpace flags)
  | 'w' => pure (.set flags.word)
  | 'W' => .set <$> flags.negate true flags.word
  | 'a' => pure (.literal '\x07')
  | 'f' => pure (.literal '\x0c')
  | 't' => pure (.literal '\t')
  | 'n' => pure (.literal '\n')
  | 'r' => pure (.literal '\r')
  | 'v' => pure (.literal '\x0b')
  | 'A' => pure (.assertion .start)
  | 'z' => pure (.assertion .stop)
  | 'b' => .assertion <$> boundary flags
  | 'B' => pure (.assertion (.notBoundary flags.word))
  | '<' => pure (.assertion (.wordStart flags.word))
  | '>' => pure (.assertion (.wordStop flags.word))
  | c => if isEscapable c then pure (.literal c) else invalid

end JsonPath.Pattern
