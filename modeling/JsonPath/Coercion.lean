import JsonPath.EvalError
import JsonPath.Syntax.Text

set_option autoImplicit false

/-!
# Coercions between the types of expressions

Every expression is evaluated at an expected type. Strict mode reports a value that does not have
it and cannot stand for one that does; lenient mode makes more of a value before it gives up.
-/
namespace JsonPath.Coercion
open EvalError

def mismatch {α : Type} (context : Context) (expected : Expected) (v : ExprValue) :
    Except EvalError α :=
  .error (.typeMismatch context expected (.value v.description))

/-- A truth value; a list of nodes is true if it has any. Lenient mode takes booleans too. -/
def toTruth (mode : Mode) (context : Context) : ExprValue → Except EvalError Bool
  | .logical b => .ok b
  | .nodes vs => .ok !vs.isEmpty
  | .json (some (.bool b)) =>
    if mode = .lenient then .ok b
    else mismatch context (.type .logical) (.json (some (.bool b)))
  | v => mismatch context (.type .logical) v

/-- The truth of an operand of a logical operator that was evaluated at a type. -/
def operandTruth (mode : Mode) (type : ExprType) (context : Context) :
    ExprValue → Except EvalError Bool :=
  match type with
  | .json => fun
    | .json (some (.bool b)) => .ok b
    | .logical b => .ok b
    | v => mismatch context .boolean v
  | _ => toTruth mode context

/-- One JSON value or none. Only lenient mode takes the first of several nodes. -/
def toJson (mode : Mode) (context : Context) : ExprValue → Except EvalError (Option Json)
  | .json v => .ok v
  | .logical b => .ok (some (.bool b))
  | .nodes vs =>
    if mode = .strict ∧ 1 < vs.length then mismatch context .singleNode (.nodes vs)
    else .ok vs.head?

/-- A truth value at the expected type. -/
def ofTruth (expected : ExprType) (b : Bool) : ExprValue :=
  match expected with
  | .json => .ofJson (.bool b)
  | _ => .logical b

/-- The values that a query selected, at the expected type. -/
def ofNodes (mode : Mode) (expected : ExprType) (singular : Bool) (query : Path)
    (vs : List Json) : Except EvalError ExprValue :=
  match expected with
  | .logical => .ok (.logical !vs.isEmpty)
  | .nodes => .ok (.nodes vs)
  | .json =>
    if mode = .strict ∧ singular = false then
      .error (.typeMismatch (.query query.text) .singularQuery .nonSingularQuery)
    else .ok (.json vs.head?)

/-- An argument as the parameter that it is for declares it. -/
def toParam (mode : Mode) (param : ExprType) (context : Context) (v : ExprValue) :
    Except EvalError ExprValue :=
  match param, v with
  | .logical, .logical b => .ok (.logical b)
  | .logical, .nodes vs => .ok (.logical !vs.isEmpty)
  | .json, .json v => .ok (.json v)
  | .nodes, .nodes vs => .ok (.nodes vs)
  | .json, v =>
    if mode = .lenient then .json <$> toJson mode context v
    else mismatch context (.type .json) v
  | .logical, v =>
    if mode = .lenient then .logical <$> toTruth mode context v
    else mismatch context (.type .logical) v
  | .nodes, v => mismatch context (.type .nodes) v

/-- The result of a call at the expected type. -/
def ofResult (mode : Mode) (expected : ExprType) (function : String) (v : ExprValue) :
    Except EvalError ExprValue :=
  match expected, v with
  | .logical, .nodes vs => .ok (.logical !vs.isEmpty)
  | .json, .logical b => .ok (.ofJson (.bool b))
  | .json, .nodes vs => .json <$> toJson mode (.result function) (.nodes vs)
  | _, v => .ok v

/-- The result of arithmetic. On operands of other types lenient mode has none. -/
def ofCalculation (mode : Mode) (result : Except EvalError (Option Json)) :
    Except EvalError ExprValue :=
  match result with
  | .ok v => .ok (.json v)
  | .error (.typeMismatch context expected found) =>
    if mode = .lenient then .ok .absent else .error (.typeMismatch context expected found)
  | .error e => .error e

end JsonPath.Coercion
