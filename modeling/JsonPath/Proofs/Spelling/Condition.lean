import JsonPath.Grammar
import JsonPath.Proofs.Spelling
import JsonPath.Proofs.WellFormed

set_option autoImplicit false

/-!
# Spellings of conditions

Which texts spell which expressions. An operand of an operator is spelt at a binding strength, and
everything that counts as nested is spelt by relations for one nesting level less.
-/
namespace JsonPath.Spelling

inductive OfArguments (expression : Expr → List Char → Prop) : List Expr → List Char → Prop
  | none {b : List Char} (hb : Blanks b) : OfArguments expression [] ('(' :: (b ++ [')']))
  | list {es : List Expr} {b t b' : List Char} (hb : Blanks b) (h : OfList expression es t)
      (hb' : Blanks b') : OfArguments expression es ('(' :: (b ++ (t ++ (b' ++ [')']))))

/-- The spellings of what stands one nesting level deeper. -/
structure Inner where
  expression : Expr → List Char → Prop
  unary : Expr → List Char → Prop
  arguments : List Expr → List Char → Prop

section
variable (mode : Mode) (inner : Inner)

/-- An operand without an operator between two others. A numeral is what is read as one to its end,
and a minus sign directly before a digit belongs to the numeral. -/
inductive OfUnary : Expr → List Char → Prop
  | enclosed {e : Expr} {b t b' : List Char} (hb : Blanks b) (h : inner.expression e t)
      (hb' : Blanks b') : OfUnary e ('(' :: (b ++ (t ++ (b' ++ [')']))))
  | query {start : Start} {ss : List Segment} {t : List Char}
      (h : OfSegments mode inner.expression ss t) :
      OfUnary (Expr.ofPath ⟨start, ss⟩) (start.char :: t)
  | string {s : String} {t : List Char} (h : OfString mode s t) : OfUnary (.string s) t
  | number {e : Expr} {t : List Char} (h : (Reader.number mode).run t = .ok (e, [])) :
      OfUnary e t
  | word {name : String} (h : Name.isShorthand name.toList = true) :
      OfUnary (Grammar.keyword name) name.toList
  | call {name : String} {args : List Expr} {t : List Char}
      (h : Name.isShorthand name.toList = true) (hargs : inner.arguments args t) :
      OfUnary (.call name args) (name.toList ++ t)
  | not {e : Expr} {b t : List Char} (hb : Blanks b) (h : inner.unary e t) :
      OfUnary (.not e) ('!' :: (b ++ t))
  | negate {e : Expr} {b t : List Char} (hb : Blanks b) (h : inner.unary e t)
      (hdigit : ∀ c ∈ (b ++ t).head?, c.isDigit = false) : OfUnary (.negate e) ('-' :: (b ++ t))

/-- An operand at a binding strength. In lenient mode a dash belongs to a name before it, and so a
blank stands between the two. -/
inductive OfExpr : Nat → Expr → List Char → Prop
  | unary {level : Nat} {e : Expr} {t : List Char} (h : OfUnary mode inner e t) : OfExpr level e t
  | binary {level : Nat} {op : BinaryOp} {l r : Expr} {t t' b b' : List Char}
      (hlevel : level ≤ op.level) (hl : OfExpr op.level l t) (hb : Blanks b) (hb' : Blanks b')
      (hr : OfExpr (op.level + 1) r t') (comparable : Comparable mode op l r)
      (dash : mode = .lenient → op = .subtract → b ≠ []) :
      OfExpr level (.binary op l r) (t ++ (b ++ (op.chars ++ (b' ++ t'))))

end

def grammar (mode : Mode) : Nat → Inner
  | 0 => ⟨fun _ _ => False, fun _ _ => False, fun _ _ => False⟩
  | levels + 1 =>
    let inner := grammar mode levels
    ⟨OfExpr mode inner 0, OfUnary mode inner, OfArguments (OfExpr mode inner 0)⟩

end JsonPath.Spelling
