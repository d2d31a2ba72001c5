set_option autoImplicit false

/-!
# Queries as trees

A path is a starting node and a chain of segments, outermost first. Filters hold expressions, and
expressions hold paths again, so the types are defined together.
-/
namespace JsonPath

/-- How strictly a query is read and evaluated: to the letter of the standard, or with relaxed
spelling and recovery from type errors. -/
inductive Mode where
  | strict
  | lenient
  deriving DecidableEq

inductive Start where
  | root
  | current
  deriving DecidableEq

inductive BinaryOp where
  | or
  | and
  | equal
  | notEqual
  | less
  | lessOrEqual
  | greater
  | greaterOrEqual
  | add
  | subtract
  | multiply
  | divide
  deriving DecidableEq

namespace BinaryOp

/-- Binding strength; all operators associate to the left. -/
def level : BinaryOp → Nat
  | .or => 0
  | .and => 1
  | .equal | .notEqual | .less | .lessOrEqual | .greater | .greaterOrEqual => 2
  | .add | .subtract => 3
  | .multiply | .divide => 4

def isComparison (op : BinaryOp) : Bool := op.level == 2

def isLogical (op : BinaryOp) : Bool := op.level < 2

def chars : BinaryOp → List Char
  | .or => ['|', '|']
  | .and => ['&', '&']
  | .equal => ['=', '=']
  | .notEqual => ['!', '=']
  | .less => ['<']
  | .lessOrEqual => ['<', '=']
  | .greater => ['>']
  | .greaterOrEqual => ['>', '=']
  | .add => ['+']
  | .subtract => ['-']
  | .multiply => ['*']
  | .divide => ['/']

def text (op : BinaryOp) : String := String.ofList op.chars

end BinaryOp

mutual
inductive Segment where
  /-- The selectors apply to the node itself. -/
  | children (selectors : List Selector)
  /-- The selectors apply to the node and to everything below it. -/
  | descendants (selectors : List Selector)

inductive Selector where
  | wildcard
  | member (name : String)
  /-- A negative index counts back from the end of the array. -/
  | index (i : Int)
  | slice (start stop step : Option Int)
  | filter (condition : Expr)

structure Path where
  start : Start
  segments : List Segment

inductive Expr where
  | null
  | bool (b : Bool)
  | integer (n : Int)
  | float (x : Float)
  | string (s : String)
  | variable (name : String)
  /-- A query that may select any number of nodes. -/
  | query (path : Path)
  /-- A query marked as selecting at most one node. -/
  | singular (path : Path)
  | call (function : String) (args : List Expr)
  | not (operand : Expr)
  | negate (operand : Expr)
  | binary (op : BinaryOp) (left right : Expr)
end

namespace Segment

def selectors : Segment → List Selector
  | .children s => s
  | .descendants s => s

/-- Exactly one name or index, on the node itself. -/
def isSingular : Segment → Bool
  | .children [.member _] => true
  | .children [.index _] => true
  | _ => false

end Segment

namespace Path

def append (p : Path) (segment : Segment) : Path := ⟨p.start, p.segments ++ [segment]⟩

/-- Such a path selects at most one node. -/
def isSingular (p : Path) : Bool := p.segments.all Segment.isSingular

def isAbsolute (p : Path) : Bool := p.start = .root

end Path

namespace Expr

def ofPath (p : Path) : Expr := if p.isSingular then .singular p else .query p

def isLiteral : Expr → Bool
  | .null | .bool _ | .integer _ | .float _ | .string _ => true
  | _ => false

def isNumeral : Expr → Bool
  | .integer _ | .float _ => true
  | _ => false

/-- The binding strength of the operator at the top; other expressions bind tightest. -/
def level : Expr → Nat
  | .binary op _ _ => op.level
  | _ => 5

def isBinary : Expr → Bool
  | .binary _ _ _ => true
  | _ => false

end Expr

/-! Equality of trees. Float literals compare as numbers: a NaN equals nothing, and the two zeros
are equal. -/

mutual
def Segment.same : Segment → Segment → Bool
  | .children a, .children b => sameSelectors a b
  | .descendants a, .descendants b => sameSelectors a b
  | _, _ => false
termination_by structural x => x

def sameSelectors : List Selector → List Selector → Bool
  | [], [] => true
  | a :: as, b :: bs => a.same b && sameSelectors as bs
  | _, _ => false
termination_by structural x => x

def Selector.same : Selector → Selector → Bool
  | .wildcard, .wildcard => true
  | .member a, .member b => a == b
  | .index a, .index b => a == b
  | .slice a b c, .slice d e f => a == d && b == e && c == f
  | .filter a, .filter b => a.same b
  | _, _ => false
termination_by structural x => x

def sameSegments : List Segment → List Segment → Bool
  | [], [] => true
  | a :: as, b :: bs => a.same b && sameSegments as bs
  | _, _ => false
termination_by structural x => x

def Path.same : Path → Path → Bool
  | ⟨a, as⟩, ⟨b, bs⟩ => a == b && sameSegments as bs
termination_by structural x => x

def Expr.same : Expr → Expr → Bool
  | .null, .null => true
  | .bool a, .bool b => a == b
  | .integer a, .integer b => a == b
  | .float a, .float b => a == b
  | .string a, .string b => a == b
  | .variable a, .variable b => a == b
  | .query a, .query b => a.same b
  | .singular a, .singular b => a.same b
  | .call f as, .call g bs => f == g && sameExprs as bs
  | .not a, .not b => a.same b
  | .negate a, .negate b => a.same b
  | .binary o a b, .binary p c d => o == p && a.same c && b.same d
  | _, _ => false
termination_by structural x => x

def sameExprs : List Expr → List Expr → Bool
  | [], [] => true
  | a :: as, b :: bs => a.same b && sameExprs as bs
  | _, _ => false
termination_by structural x => x
end

instance : BEq Path := ⟨Path.same⟩
instance : BEq Segment := ⟨Segment.same⟩
instance : BEq Selector := ⟨Selector.same⟩
instance : BEq Expr := ⟨Expr.same⟩

end JsonPath
