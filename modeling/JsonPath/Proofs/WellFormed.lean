import JsonPath.Reader.Literal
import JsonPath.Syntax.Text

set_option autoImplicit false

/-!
# Well-formed queries

Not every tree has a text: a list of selectors may be empty, a name need not be an identifier, and
a number may be out of range. What is asked of a tree depends on the mode. How deep its canonical
text nests is a matter of its own.
-/
namespace JsonPath

def Expr.isQuery : Expr → Bool
  | .query _ => true
  | _ => false

/-- By the standard a comparison has no query for an operand that may select several nodes. -/
def Comparable (mode : Mode) (op : BinaryOp) (l r : Expr) : Prop :=
  mode = .strict → op.isComparison = true → l.isQuery = false ∧ r.isQuery = false

/-- An index that has 64 bits, and by the standard one that floats represent exactly. -/
def IndexFits (mode : Mode) (i : Int) : Prop :=
  Word.fits i = true ∧ (mode = .strict → i.natAbs ≤ Reader.maxExact)

def BoundFits (mode : Mode) (bound : Option Int) : Prop := ∀ i ∈ bound, IndexFits mode i

/-- An identifier that is not a literal. -/
def IsVariable (name : String) : Prop :=
  Name.isShorthand name.toList = true ∧ name ∉ ["true", "false", "null"]

section
variable (mode : Mode) (literal : Float → Prop)

mutual
def Segment.WellFormed : Segment → Prop
  | .children s => s ≠ [] ∧ SelectorsWellFormed s
  | .descendants s => s ≠ [] ∧ SelectorsWellFormed s

def SelectorsWellFormed : List Selector → Prop
  | [] => True
  | s :: rest => s.WellFormed ∧ SelectorsWellFormed rest

def Selector.WellFormed : Selector → Prop
  | .wildcard => True
  | .member _ => True
  | .index i => IndexFits mode i
  | .slice start stop step => BoundFits mode start ∧ BoundFits mode stop ∧ BoundFits mode step
  | .filter e => e.WellFormed

def SegmentsWellFormed : List Segment → Prop
  | [] => True
  | s :: rest => s.WellFormed ∧ SegmentsWellFormed rest

def Path.WellFormed : Path → Prop
  | ⟨_, s⟩ => SegmentsWellFormed s

/-- Of float literals only `literal` is asked. -/
def Expr.WellFormed : Expr → Prop
  | .null => True
  | .bool _ => True
  | .integer n => Word.fits n = true
  | .float x => literal x
  | .string _ => True
  | .variable name => IsVariable name
  | .query p => p.isSingular = false ∧ p.WellFormed
  | .singular p => p.isSingular = true ∧ p.WellFormed
  | .call f args => Name.isShorthand f.toList = true ∧ ArgumentsWellFormed args
  | .not e => e.WellFormed
  | .negate e => e.WellFormed
  | .binary op l r => l.WellFormed ∧ r.WellFormed ∧ Comparable mode op l r

def ArgumentsWellFormed : List Expr → Prop
  | [] => True
  | e :: rest => e.WellFormed ∧ ArgumentsWellFormed rest
end

end

/-! Filters, calls, prefix operators and parentheses each count as one level of nesting in the
canonical text. -/

mutual
def Segment.nesting : Segment → Nat
  | .children s => selectorsNesting s
  | .descendants s => selectorsNesting s

def selectorsNesting : List Selector → Nat
  | [] => 0
  | s :: rest => max s.nesting (selectorsNesting rest)

def Selector.nesting : Selector → Nat
  | .filter e => e.nesting + 1
  | _ => 0

def segmentsNesting : List Segment → Nat
  | [] => 0
  | s :: rest => max s.nesting (segmentsNesting rest)

def Path.nesting : Path → Nat
  | ⟨_, s⟩ => segmentsNesting s

def Expr.nesting : Expr → Nat
  | .query p => p.nesting
  | .singular p => p.nesting
  | .call _ args => argumentsNesting args + 1
  | .not e => (if e.isNumeral || e.isBinary then e.nesting + 1 else e.nesting) + 1
  | .negate e => (if e.isNumeral || e.isBinary then e.nesting + 1 else e.nesting) + 1
  | .binary op l r =>
    max (if l.level < op.level then l.nesting + 1 else l.nesting)
      (if r.level ≤ op.level then r.nesting + 1 else r.nesting)
  | _ => 0

def argumentsNesting : List Expr → Nat
  | [] => 0
  | e :: rest => max e.nesting (argumentsNesting rest)
end

end JsonPath
