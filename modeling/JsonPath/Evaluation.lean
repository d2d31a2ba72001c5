import JsonPath.Arithmetic
import JsonPath.Coercion
import JsonPath.Environment
import JsonPath.Slice
import JsonPath.Walk

set_option autoImplicit false

/-!
# Evaluation

A path turns a node into the list of nodes that it selects. Each segment is applied to every node
selected so far, in order. Filters evaluate expressions at each candidate, and the queries inside
them are evaluated by the same functions again; the recursion is on the query.
-/
namespace JsonPath

/-- What evaluation needs besides a query and a node. -/
structure Context where
  root : Json
  environment : Environment
  mode : Mode

/-- The results for all items, in order, or the first error. -/
def collect {α β : Type} (f : α → Except EvalError (List β)) :
    List α → Except EvalError (List β)
  | [] => .ok []
  | a :: rest =>
    match f a with
    | .error e => .error e
    | .ok bs =>
      match collect f rest with
      | .error e => .error e
      | .ok more => .ok (bs ++ more)

namespace Node

def memberNamed (n : Node) (name : String) : List Node :=
  match n.value with
  | .object ms =>
    match ms.lookup name with
    | some v => [⟨n.location.member name, v⟩]
    | none => []
  | _ => []

def elementAt (n : Node) (items : List Json) (i : Nat) : List Node :=
  match items[i]? with
  | some v => [⟨n.location.index i, v⟩]
  | none => []

def indexed (n : Node) (index : Int) : List Node :=
  match n.value with
  | .array items =>
    match position? index items.length with
    | some i => n.elementAt items i
    | none => []
  | _ => []

def sliced (n : Node) (start stop step : Option Int) : List Node :=
  match n.value with
  | .array items => (slicePositions start stop step items.length).flatMap (n.elementAt items)
  | _ => []

end Node

def keeps (mode : Mode) (condition : Expr) : ExprValue → Except EvalError Bool
  | .logical b => .ok b
  | _ => if mode = .strict then .error (.filterNotLogical condition.text) else .ok false

/-- The candidate itself if its filter keeps it. -/
def kept (mode : Mode) (condition : Expr) (candidate : Node)
    (result : Except EvalError ExprValue) : Except EvalError (List Node) := do
  if ← keeps mode condition (← result) then pure [candidate] else pure []

/-- Whether the left operand of a logical operator decides its result. -/
def BinaryOp.decided (op : BinaryOp) (left : Bool) : Bool :=
  if op = .and then !left else left

mutual
def Segment.apply (ctx : Context) : Segment → Node → Except EvalError (List Node)
  | .children s, n => applySelectors ctx s n
  | .descendants s, n => collect (fun visited => applySelectors ctx s visited) n.walk

def applySelectors (ctx : Context) : List Selector → Node → Except EvalError (List Node)
  | [], _ => .ok []
  | s :: rest, n => do
    let selected ← s.apply ctx n
    let more ← applySelectors ctx rest n
    pure (selected ++ more)

def Selector.apply (ctx : Context) : Selector → Node → Except EvalError (List Node)
  | .wildcard, n => .ok n.children
  | .member name, n => .ok (n.memberNamed name)
  | .index i, n => .ok (n.indexed i)
  | .slice start stop step, n => .ok (n.sliced start stop step)
  | .filter e, n =>
    collect (fun child => kept ctx.mode e child (e.evaluate ctx child.value .logical)) n.children

def applySegments (ctx : Context) : List Segment → List Node → Except EvalError (List Node)
  | [], ns => .ok ns
  | s :: rest, ns => do
    let selected ← collect (fun n => s.apply ctx n) ns
    applySegments ctx rest selected

/-- The nodes that a path selects, from `current` or from the root of the document. -/
def Path.select (ctx : Context) : Path → Node → Except EvalError (List Node)
  | ⟨.root, s⟩, _ => applySegments ctx s [Node.root ctx.root]
  | ⟨.current, s⟩, current => applySegments ctx s [current]

/-- The value of an expression at an expected type, with `current` as the value under test. -/
def Expr.evaluate (ctx : Context) : Expr → Json → ExprType → Except EvalError ExprValue
  | .null, _, _ => .ok (.ofJson .null)
  | .bool b, _, _ => .ok (.ofJson (.bool b))
  | .integer n, _, _ => .ok (.ofJson (.integer n))
  | .float x, _, _ => .ok (.json (Json.float? x))
  | .string s, _, _ => .ok (.ofJson (.string s))
  | .variable name, _, _ =>
    match ctx.environment.findVariable name with
    | some v => .ok (.ofJson v)
    | none => .error (.unknownVariable name)
  | .query p, current, expected => do
    let ns ← p.select ctx (Node.root current)
    Coercion.ofNodes ctx.mode expected false p (ns.map Node.value)
  | .singular p, current, expected => do
    let ns ← p.select ctx (Node.root current)
    Coercion.ofNodes ctx.mode expected true p (ns.map Node.value)
  | .call name args, current, expected =>
    match ctx.environment.findFunction name with
    | none => .error (.unknownFunction name)
    | some f =>
      if args.length ≠ f.arity then .error (.wrongArity name f.arity args.length)
      else do
        let values ← evaluateArguments ctx name 1 args f.params current
        let result ← f.apply ctx.root current values
        if result.type ≠ f.result then Coercion.mismatch (.result name) (.type f.result) result
        else Coercion.ofResult ctx.mode expected name result
  | .not e, current, expected => do
    let v ← e.evaluate ctx current .logical
    let b ← Coercion.toTruth ctx.mode .notOperand v
    pure (Coercion.ofTruth expected !b)
  | .negate e, current, _ => do
    let v ← e.evaluate ctx current .json
    let operand ← Coercion.toJson ctx.mode .negateOperand v
    .ofJson <$> negated operand
  | .binary op left right, current, expected =>
    if op.isLogical then
      if expected = .nodes then
        .error (.typeMismatch (.operands op) (.type .nodes) (.type .logical))
      else do
        let l ← left.evaluate ctx current expected
        let a ← Coercion.operandTruth ctx.mode expected (.operands op) l
        if op.decided a then pure (Coercion.ofTruth expected a)
        else do
          let r ← right.evaluate ctx current expected
          let b ← Coercion.operandTruth ctx.mode expected (.operands op) r
          pure (Coercion.ofTruth expected b)
    else do
      let l ← left.evaluate ctx current .json
      let a ← Coercion.toJson ctx.mode (.operands op) l
      let r ← right.evaluate ctx current .json
      let b ← Coercion.toJson ctx.mode (.operands op) r
      if op.isComparison then pure (Coercion.ofTruth expected (op.compare a b))
      else Coercion.ofCalculation ctx.mode (op.calculate a b)

def evaluateArguments (ctx : Context) (function : String) :
    Nat → List Expr → List ExprType → Json → Except EvalError (List ExprValue)
  | position, e :: rest, t :: types, current => do
    let v ← e.evaluate ctx current t
    let v ← Coercion.toParam ctx.mode t (.argument position function) v
    let vs ← evaluateArguments ctx function (position + 1) rest types current
    pure (v :: vs)
  | _, _, _, _ => .ok []
end

/-- The nodes that a path selects from a whole document. -/
def Path.evaluate (p : Path) (document : Json) (environment : Environment) (mode : Mode) :
    Except EvalError (List Node) :=
  p.select ⟨document, environment, mode⟩ (Node.root document)

end JsonPath
