import JsonPath.ExprValue
import JsonPath.Syntax

set_option autoImplicit false

/-!
# Why a query cannot be evaluated
-/
namespace JsonPath
namespace EvalError

inductive Context where
  | notOperand
  | negateOperand
  | operands (op : BinaryOp)
  | query (text : String)
  | argument (position : Nat) (function : String)
  | result (function : String)
  deriving DecidableEq

inductive Expected where
  | type (t : ExprType)
  | boolean
  | singleNode
  | singularQuery
  | numbers
  | numbersOrStrings
  deriving DecidableEq

inductive Found where
  | type (t : ExprType)
  | value (v : Description)
  | nonSingularQuery
  | kinds (left right : String)
  deriving DecidableEq

def Context.text : Context → String
  | .notOperand => "operand of '!'"
  | .negateOperand => "operand of '-'"
  | .operands op => "operands of '" ++ op.text ++ "'"
  | .query text => "query " ++ text
  | .argument position function => "argument " ++ toString position ++ " of " ++ function ++ "()"
  | .result function => "result of " ++ function ++ "()"

def Expected.text : Expected → String
  | .type t => t.text
  | .boolean => "JSON boolean"
  | .singleNode => "single node"
  | .singularQuery => "singular query"
  | .numbers => "two numbers"
  | .numbersOrStrings => "two numbers or two strings"

def Found.text : Found → String
  | .type t => t.text
  | .value v => v.text
  | .nonSingularQuery => "non-singular query"
  | .kinds left right => left ++ " and " ++ right

end EvalError

inductive EvalError where
  | unknownVariable (name : String)
  | unknownFunction (name : String)
  | wrongArity (function : String) (expected found : Nat)
  | typeMismatch (context : EvalError.Context) (expected : EvalError.Expected)
      (found : EvalError.Found)
  | divisionByZero
  | filterNotLogical (expression : String)
  | cannotNegate (kind : String)
  | functionFailed (function message : String)
  deriving DecidableEq

namespace EvalError

def message : EvalError → String
  | .unknownVariable name => "unknown variable '" ++ name ++ "'"
  | .unknownFunction name => "unknown function '" ++ name ++ "'"
  | .wrongArity function expected found =>
    "function '" ++ function ++ "' takes " ++ toString expected
      ++ " argument(s) but was given " ++ toString found
  | .typeMismatch context expected found =>
    "type mismatch in " ++ context.text ++ ": expected " ++ expected.text
      ++ ", found " ++ found.text
  | .divisionByZero => "division by zero"
  | .filterNotLogical expression =>
    "filter '" ++ expression ++ "' does not produce a logical result"
  | .cannotNegate kind => "cannot negate " ++ kind
  | .functionFailed function message =>
    "function '" ++ function ++ "' failed: " ++ message

end EvalError
end JsonPath
