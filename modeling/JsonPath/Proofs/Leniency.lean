import JsonPath.Standard
import JsonPath.Proofs.Collection

set_option autoImplicit false

/-!
# Lenient evaluation extends strict evaluation

Wherever strict evaluation has a result, lenient evaluation has the same. A lenient coercion does
something of its own only on values that strict mode rejects, and the two runs are joined step by
step along the query.
-/
namespace JsonPath

/-- Every result of the first computation is the result of the second. -/
def Extends {α : Type} (strict lenient : Except EvalError α) : Prop :=
  ∀ a, strict = .ok a → lenient = .ok a

namespace Extends

variable {α β : Type}

theorem refl (x : Except EvalError α) : Extends x x := fun _ h => h

theorem of_error (e : EvalError) (x : Except EvalError α) : Extends (.error e) x := by
  intro a h
  cases h

theorem bind {x y : Except EvalError α} {f g : α → Except EvalError β} (h : Extends x y)
    (hfg : ∀ a, Extends (f a) (g a)) : Extends (x >>= f) (y >>= g) := by
  cases x with
  | error e => exact of_error e _
  | ok a =>
    rw [h a rfl]
    exact hfg a

theorem map {x y : Except EvalError α} (f : α → β) (h : Extends x y) :
    Extends (f <$> x) (f <$> y) := by
  cases x with
  | error e => exact of_error e _
  | ok a =>
    rw [h a rfl]
    exact refl _

theorem ite {c : Prop} [Decidable c] {x x' y y' : Except EvalError α} (hx : c → Extends x x')
    (hy : ¬ c → Extends y y') : Extends (if c then x else y) (if c then x' else y') := by
  split
  · next h => exact hx h
  · next h => exact hy h

theorem collect {f g : α → Except EvalError (List β)} (h : ∀ a, Extends (f a) (g a))
    (as : List α) : Extends (collect f as) (collect g as) := by
  induction as with
  | nil => exact refl _
  | cons a rest ih =>
    rw [collect_cons, collect_cons]
    exact (h a).bind fun found => ih.bind fun more => refl (pure (found ++ more))

end Extends

namespace Coercion

theorem toTruth_extends (context : EvalError.Context) (v : ExprValue) :
    Extends (toTruth .strict context v) (toTruth .lenient context v) := by
  cases v with
  | json value =>
    match value with
    | some (.bool b) => exact .of_error _ _
    | none | some .null | some (.number _) | some (.string _) | some (.array _)
    | some (.object _) => exact .of_error _ _
  | _ => exact .refl _

theorem operandTruth_extends (type : ExprType) (context : EvalError.Context) (v : ExprValue) :
    Extends (operandTruth .strict type context v) (operandTruth .lenient type context v) := by
  cases type with
  | json => exact .refl _
  | _ => exact toTruth_extends context v

theorem toJson_extends (context : EvalError.Context) (v : ExprValue) :
    Extends (toJson .strict context v) (toJson .lenient context v) := by
  cases v with
  | nodes vs =>
    rw [toJson, toJson]
    split
    · exact .of_error _ _
    · exact .refl _
  | _ => exact .refl _

theorem ofNodes_extends (expected : ExprType) (singular : Bool) (query : Path) (vs : List Json) :
    Extends (ofNodes .strict expected singular query vs)
      (ofNodes .lenient expected singular query vs) := by
  cases expected with
  | json =>
    rw [ofNodes, ofNodes]
    split
    · exact .of_error _ _
    · exact .refl _
  | _ => exact .refl _

theorem toParam_extends (param : ExprType) (context : EvalError.Context) (v : ExprValue) :
    Extends (toParam .strict param context v) (toParam .lenient param context v) := by
  cases param with
  | nodes => cases v <;> exact .refl _
  | json =>
    cases v with
    | json value => exact .refl _
    | _ => exact .of_error _ _
  | logical =>
    cases v with
    | json value => exact .of_error _ _
    | _ => exact .refl _

theorem ofResult_extends (expected : ExprType) (function : String) (v : ExprValue) :
    Extends (ofResult .strict expected function v) (ofResult .lenient expected function v) := by
  cases expected with
  | json =>
    cases v with
    | nodes vs => exact (toJson_extends _ _).map _
    | _ => exact .refl _
  | _ => cases v <;> exact .refl _

theorem ofCalculation_extends (result : Except EvalError (Option Json)) :
    Extends (ofCalculation .strict result) (ofCalculation .lenient result) := by
  cases result with
  | ok v => exact .refl _
  | error e =>
    cases e with
    | typeMismatch context expected found => exact .of_error _ _
    | _ => exact .refl _

end Coercion

theorem keeps_extends (condition : Expr) (v : ExprValue) :
    Extends (keeps .strict condition v) (keeps .lenient condition v) := by
  cases v with
  | logical b => exact .refl _
  | _ => exact .of_error _ _

theorem kept_extends (condition : Expr) (candidate : Node) {x y : Except EvalError ExprValue}
    (h : Extends x y) :
    Extends (kept .strict condition candidate x) (kept .lenient condition candidate y) :=
  h.bind fun v => (keeps_extends condition v).bind fun _ => .refl _

section
variable (root : Json) (environment : Environment)

mutual
theorem Segment.apply_extends (s : Segment) (n : Node) :
    Extends (s.apply ⟨root, environment, .strict⟩ n)
      (s.apply ⟨root, environment, .lenient⟩ n) := by
  match s with
  | .children ss => exact applySelectors_extends ss n
  | .descendants ss =>
    exact Extends.collect (fun visited => applySelectors_extends ss visited) n.walk

theorem applySelectors_extends (ss : List Selector) (n : Node) :
    Extends (applySelectors ⟨root, environment, .strict⟩ ss n)
      (applySelectors ⟨root, environment, .lenient⟩ ss n) := by
  match ss with
  | [] => exact .refl _
  | s :: rest =>
    exact (Selector.apply_extends s n).bind fun selected =>
      (applySelectors_extends rest n).bind fun more => .refl _

theorem Selector.apply_extends (s : Selector) (n : Node) :
    Extends (s.apply ⟨root, environment, .strict⟩ n)
      (s.apply ⟨root, environment, .lenient⟩ n) := by
  match s with
  | .wildcard => exact .refl _
  | .member name => exact .refl _
  | .index i => exact .refl _
  | .slice start stop step => exact .refl _
  | .filter e =>
    exact Extends.collect
      (fun child => kept_extends e child (Expr.evaluate_extends e child.value .logical)) n.children

theorem applySegments_extends (ss : List Segment) (ns : List Node) :
    Extends (applySegments ⟨root, environment, .strict⟩ ss ns)
      (applySegments ⟨root, environment, .lenient⟩ ss ns) := by
  match ss with
  | [] => exact .refl _
  | s :: rest =>
    exact (Extends.collect (fun n => Segment.apply_extends s n) ns).bind fun selected =>
      applySegments_extends rest selected

theorem Path.select_extends (p : Path) (n : Node) :
    Extends (p.select ⟨root, environment, .strict⟩ n)
      (p.select ⟨root, environment, .lenient⟩ n) := by
  match p with
  | ⟨.root, ss⟩ => exact applySegments_extends ss [Node.root root]
  | ⟨.current, ss⟩ => exact applySegments_extends ss [n]

theorem Expr.evaluate_extends (e : Expr) (current : Json) (expected : ExprType) :
    Extends (e.evaluate ⟨root, environment, .strict⟩ current expected)
      (e.evaluate ⟨root, environment, .lenient⟩ current expected) := by
  match e with
  | .null => exact .refl _
  | .bool b => exact .refl _
  | .integer n => exact .refl _
  | .float x => exact .refl _
  | .string s => exact .refl _
  | .variable name => exact .refl _
  | .query p =>
    exact (Path.select_extends p (Node.root current)).bind fun ns =>
      Coercion.ofNodes_extends expected false p _
  | .singular p =>
    exact (Path.select_extends p (Node.root current)).bind fun ns =>
      Coercion.ofNodes_extends expected true p _
  | .call name args =>
    rw [Expr.evaluate, Expr.evaluate]
    cases environment.findFunction name with
    | none => exact .refl _
    | some f =>
      refine Extends.ite (fun _ => .refl _) fun _ => ?_
      refine (evaluateArguments_extends args name 1 f.params current).bind fun values => ?_
      refine (Extends.refl (f.apply root current values)).bind fun result => ?_
      exact Extends.ite (fun _ => .refl _) fun _ => Coercion.ofResult_extends expected name result
  | .not e =>
    refine (Expr.evaluate_extends e current .logical).bind fun v => ?_
    exact (Coercion.toTruth_extends .notOperand v).bind fun b => .refl _
  | .negate e =>
    refine (Expr.evaluate_extends e current .json).bind fun v => ?_
    exact (Coercion.toJson_extends .negateOperand v).bind fun operand => .refl _
  | .binary op left right =>
    rw [Expr.evaluate, Expr.evaluate]
    refine Extends.ite (fun _ => ?_) fun _ => ?_
    · refine Extends.ite (fun _ => .refl _) fun _ => ?_
      refine (Expr.evaluate_extends left current expected).bind fun l => ?_
      refine (Coercion.operandTruth_extends expected (.operands op) l).bind fun a => ?_
      -- where the left operand decides, neither run evaluates the right one
      refine Extends.ite (fun _ => .refl _) fun _ => ?_
      refine (Expr.evaluate_extends right current expected).bind fun r => ?_
      exact (Coercion.operandTruth_extends expected (.operands op) r).bind fun b => .refl _
    · refine (Expr.evaluate_extends left current .json).bind fun l => ?_
      refine (Coercion.toJson_extends (.operands op) l).bind fun a => ?_
      refine (Expr.evaluate_extends right current .json).bind fun r => ?_
      refine (Coercion.toJson_extends (.operands op) r).bind fun b => ?_
      exact Extends.ite (fun _ => .refl _) fun _ => Coercion.ofCalculation_extends _

theorem evaluateArguments_extends (args : List Expr) (function : String) (position : Nat)
    (types : List ExprType) (current : Json) :
    Extends (evaluateArguments ⟨root, environment, .strict⟩ function position args types current)
      (evaluateArguments ⟨root, environment, .lenient⟩ function position args types current) := by
  match args, types with
  | [], _ => exact .refl _
  | _ :: _, [] => exact .refl _
  | e :: rest, t :: types =>
    refine (Expr.evaluate_extends e current t).bind fun v => ?_
    refine (Coercion.toParam_extends t (.argument position function) v).bind fun v => ?_
    refine (evaluateArguments_extends rest function (position + 1) types current).bind fun vs => ?_
    exact .refl _
end

end

/-- A query or an expression that is evaluated in strict mode has the same result in lenient mode,
whatever the variables are and the functions do. -/
theorem evaluate_lenient_of_strict (document : Json) (environment : Environment) :
    (∀ (p : Path) (ns : List Node), p.evaluate document environment .strict = .ok ns →
      p.evaluate document environment .lenient = .ok ns) ∧
    ∀ (e : Expr) (current : Json) (expected : ExprType) (v : ExprValue),
      e.evaluate ⟨document, environment, .strict⟩ current expected = .ok v →
        e.evaluate ⟨document, environment, .lenient⟩ current expected = .ok v := by
  constructor
  · intro p ns h
    exact Path.select_extends document environment p (Node.root document) ns h
  · intro e current expected v h
    exact Expr.evaluate_extends document environment e current expected v h

theorem evaluate_lenient_of_strict_filter :
    let document := Json.array [.integer 1, .string "x", .integer 3]
    let current : Expr := .singular ⟨.current, []⟩
    let condition : Expr := .binary .or (.binary .greater current (.integer 2))
      (.binary .equal (.call "length" [current]) (.integer 1))
    let p : Path := ⟨.root, [.children [.filter condition]]⟩
    let ns : List Node :=
      [⟨Location.root.index 1, .string "x"⟩, ⟨Location.root.index 2, .integer 3⟩]
    p.evaluate document .standard .lenient = .ok ns ∧
      condition.evaluate ⟨document, .standard, .lenient⟩ (.integer 3) .json =
        .ok (.ofJson (.bool true)) := by
  intro document current condition p ns
  have h := evaluate_lenient_of_strict document .standard
  exact ⟨h.1 p ns (by rfl), h.2 condition (.integer 3) .json _ (by rfl)⟩

end JsonPath
