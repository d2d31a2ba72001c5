import JsonPath.Unicode.Property

set_option autoImplicit false

/-!
# Patterns

A pattern is a regular expression over characters, with assertions about the place where they are
tested. Only whether a text has a match is asked, so a pattern does not say which of several matches
is meant, and groups leave no trace in it.
-/
namespace JsonPath

abbrev CharSet := Char → Bool

namespace CharSet

def none : CharSet := fun _ => false

def single (c : Char) : CharSet := fun d => d == c

def range (low high : Char) : CharSet := fun c => low ≤ c && c ≤ high

def ranges (ends : List Nat) : CharSet := fun c => Unicode.inRanges c.toNat ends

def union (s t : CharSet) : CharSet := fun c => s c || t c

def intersection (s t : CharSet) : CharSet := fun c => s c && t c

def difference (s t : CharSet) : CharSet := fun c => s c && !t c

def symmetricDifference (s t : CharSet) : CharSet := fun c => s c != t c

def complement (s : CharSet) : CharSet := fun c => !s c

def folded (s : CharSet) : CharSet :=
  fun c => (Unicode.caseVariants c.toNat).any fun n => s (Char.ofNat n)

def foldedAscii (s : CharSet) : CharSet := fun c => s c || s c.toLower || s c.toUpper

def asciiWord : CharSet := fun c => c.isAlphanum || c == '_'

end CharSet

inductive Assertion where
  | start
  | stop
  | lineStart
  | lineStop
  /-- Lines that a carriage return, a line feed or both together end. -/
  | anyLineStart
  | anyLineStop
  | boundary (word : CharSet)
  | notBoundary (word : CharSet)
  | wordStart (word : CharSet)
  | wordStop (word : CharSet)
  | wordStartHalf (word : CharSet)
  | wordStopHalf (word : CharSet)

namespace Assertion

/-- Whether the assertion holds between two characters; at an end of the text one is missing. -/
def holds (before after : Option Char) : Assertion → Bool
  | .start => before.isNone
  | .stop => after.isNone
  | .lineStart => before.isNone || before == some '\n'
  | .lineStop => after.isNone || after == some '\n'
  | .anyLineStart =>
    before.isNone || before == some '\n' || (before == some '\r' && after != some '\n')
  | .anyLineStop =>
    after.isNone || after == some '\r' || (after == some '\n' && before != some '\r')
  | .boundary word => before.any word != after.any word
  | .notBoundary word => before.any word == after.any word
  | .wordStart word => !before.any word && after.any word
  | .wordStop word => before.any word && !after.any word
  | .wordStartHalf word => !before.any word
  | .wordStopHalf word => !after.any word

end Assertion

inductive Pattern where
  | empty
  | char (set : CharSet)
  | assertion (a : Assertion)
  | sequence (first second : Pattern)
  | either (left right : Pattern)
  /-- So many times in a row, without a bound if there is no greatest number. -/
  | repeated (p : Pattern) (least : Nat) (most : Option Nat)

namespace Pattern

def sequenceOf (items : List Pattern) : Pattern :=
  match items with
  | [] => .empty
  | [p] => p
  | p :: rest => .sequence p (sequenceOf rest)

def eitherOf (items : List Pattern) : Pattern :=
  match items with
  | [] => .empty
  | [p] => p
  | p :: rest => .either p (eitherOf rest)

end Pattern
end JsonPath
