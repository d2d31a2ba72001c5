import JsonPath.Decimal
import JsonPath.Name
import JsonPath.Syntax

set_option autoImplicit false

/-!
# The canonical text of a query

Every segment is written in brackets, every name between single quotes, and an operand stands in
parentheses only where the binding strength of the operators asks for them.
-/
namespace JsonPath

def enclosed (chars : List Char) : List Char := '(' :: (chars ++ [')'])

def commaSeparated : List (List Char) → List Char
  | [] => []
  | [item] => item
  | item :: rest => item ++ ',' :: ' ' :: commaSeparated rest

def boundChars (bound : Option Int) : List Char := (bound.map Decimal.intChars).getD []

def sliceChars (start stop step : Option Int) : List Char :=
  boundChars start ++ ':' :: (boundChars stop ++
    (step.map fun s => ':' :: Decimal.intChars s).getD [])

namespace Start

def char : Start → Char
  | .root => '$'
  | .current => '@'

end Start

mutual
def Segment.chars : Segment → List Char
  | .children s => '[' :: (commaSeparated (selectorTexts s) ++ [']'])
  | .descendants s => '.' :: '.' :: '[' :: (commaSeparated (selectorTexts s) ++ [']'])

def selectorTexts : List Selector → List (List Char)
  | [] => []
  | s :: rest => s.chars :: selectorTexts rest

def Selector.chars : Selector → List Char
  | .wildcard => ['*']
  | .member name => Name.quotedChars name
  | .index i => Decimal.intChars i
  | .slice start stop step => sliceChars start stop step
  | .filter e => '?' :: e.chars

def segmentChars : List Segment → List Char
  | [] => []
  | s :: rest => s.chars ++ segmentChars rest

def Path.chars : Path → List Char
  | ⟨start, segments⟩ => start.char :: segmentChars segments

def Expr.chars : Expr → List Char
  | .null => ['n', 'u', 'l', 'l']
  | .bool true => ['t', 'r', 'u', 'e']
  | .bool false => ['f', 'a', 'l', 's', 'e']
  | .integer n => Decimal.intChars n
  | .float x => Decimal.floatChars x
  | .string s => Name.quotedChars s
  | .variable name => name.toList
  | .query p => p.chars
  | .singular p => p.chars
  | .call f args => f.toList ++ enclosed (commaSeparated (argumentTexts args))
  | .not e => '!' :: (if e.isNumeral || e.isBinary then enclosed e.chars else e.chars)
  | .negate e => '-' :: (if e.isNumeral || e.isBinary then enclosed e.chars else e.chars)
  | .binary op l r =>
    (if l.level < op.level then enclosed l.chars else l.chars)
      ++ ' ' :: (op.chars
        ++ ' ' :: (if r.level ≤ op.level then enclosed r.chars else r.chars))

def argumentTexts : List Expr → List (List Char)
  | [] => []
  | e :: rest => e.chars :: argumentTexts rest
end

def Path.text (p : Path) : String := String.ofList p.chars

def Segment.text (s : Segment) : String := String.ofList s.chars

def Expr.text (e : Expr) : String := String.ofList e.chars

end JsonPath
