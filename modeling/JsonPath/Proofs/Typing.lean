import JsonPath.Proofs.Selection

set_option autoImplicit false

/-!
# Types of values

An expression gives values of a type of its own, and at an expected type what that one can be made
to fit. Nothing is assumed of functions: a result of another type than the declared one is an error,
and so is an argument that does not fit its parameter.
-/
namespace JsonPath

namespace ExprType

/-- The type of a value of type `own` after it is made to fit an expected type. -/
def fitted (expected own : ExprType) : ExprType :=
  match expected with
  | .json => .json
  | .logical => if own = .json then .json else .logical
  | .nodes => own

theorem fitted_json (expected : ExprType) : expected.fitted .json = .json := by
  cases expected <;> rfl

end ExprType

namespace Expr

/-- The type that an expression gives by itself. A call gives what its function declares. -/
def ownType (environment : Environment) : Expr → Option ExprType
  | .query _ | .singular _ => some .nodes
  | .not _ => some .logical
  | .binary op _ _ => some (if op.isLogical || op.isComparison then .logical else .json)
  | .call name _ => (environment.findFunction name).map Function.result
  | _ => some .json

/-- A conjunction or a disjunction. -/
def isConnective : Expr → Bool
  | .binary op _ _ => op.isLogical
  | _ => false

end Expr

namespace Coercion
variable {mode : Mode} {expected : ExprType} {v w : ExprValue}

theorem type_ofTruth (b : Bool) : (ofTruth expected b).type = expected.fitted .logical := by
  cases expected <;> rfl

theorem type_ofNodes {singular : Bool} {query : Path} {vs : List Json}
    (h : ofNodes mode expected singular query vs = .ok v) : v.type = expected.fitted .nodes := by
  cases expected with
  | json =>
    rw [ofNodes] at h
    split at h
    · cases h
    · cases h
      rfl
  | _ =>
    cases h
    rfl

theorem type_ofResult {function : String} (h : ofResult mode expected function v = .ok w) :
    w.type = expected.fitted v.type := by
  have hself : ∀ u : ExprValue, (.ok u : Except EvalError ExprValue) = .ok w → w = u :=
    fun u hu => (Except.ok.inj hu).symm
  cases expected with
  | json =>
    cases v with
    | json value => rw [hself _ h]; rfl
    | logical b => rw [hself _ h]; rfl
    | nodes vs =>
      rw [ofResult] at h
      obtain ⟨value, -, hw⟩ := bind_eq_ok.mp h
      rw [hself _ hw]
      rfl
  | logical => cases v <;> (rw [hself _ h]; rfl)
  | nodes => cases v <;> (rw [hself _ h]; rfl)

theorem type_ofCalculation {result : Except EvalError (Option Json)}
    (h : ofCalculation mode result = .ok v) : v.type = .json := by
  rw [ofCalculation.eq_def] at h
  split at h
  · cases h
    rfl
  · split at h
    · cases h
      rfl
    · cases h
  · cases h

theorem type_toParam {param : ExprType} {context : EvalError.Context}
    (h : toParam mode param context v = .ok w) : w.type = param := by
  rw [toParam.eq_def] at h
  split at h
  case h_5 | h_6 =>
    split at h
    · obtain ⟨a, -, hw⟩ := bind_eq_ok.mp h
      cases hw
      rfl
    · cases h
  case h_7 => cases h
  all_goals
    cases h
    rfl

end Coercion

variable {ctx : Context} {current : Json} {expected : ExprType}

theorem Expr.type_evaluate {e : Expr} {v : ExprValue}
    (h : e.evaluate ctx current expected = .ok v) :
    ∃ own, e.ownType ctx.environment = some own ∧ v.type = expected.fitted own := by
  match e with
  | .null | .bool _ | .integer _ | .float _ | .string _ =>
    cases h
    exact ⟨.json, rfl, (ExprType.fitted_json expected).symm⟩
  | .variable name =>
    rw [Expr.evaluate] at h
    split at h
    · cases h
      exact ⟨.json, rfl, (ExprType.fitted_json expected).symm⟩
    · cases h
  | .query p =>
    rw [Expr.evaluate] at h
    obtain ⟨ns, -, h⟩ := bind_eq_ok.mp h
    exact ⟨.nodes, rfl, Coercion.type_ofNodes h⟩
  | .singular p =>
    rw [Expr.evaluate] at h
    obtain ⟨ns, -, h⟩ := bind_eq_ok.mp h
    exact ⟨.nodes, rfl, Coercion.type_ofNodes h⟩
  | .call name args =>
    rw [Expr.evaluate] at h
    split at h
    · cases h
    next f hf =>
    split at h
    · cases h
    obtain ⟨values, -, h⟩ := bind_eq_ok.mp h
    obtain ⟨result, -, h⟩ := bind_eq_ok.mp h
    split at h
    · cases h
    next hresult =>
    have hdeclared : result.type = f.result := Decidable.not_not.mp hresult
    refine ⟨f.result, ?_, ?_⟩
    · rw [Expr.ownType, hf]
      rfl
    · rw [← hdeclared]
      exact Coercion.type_ofResult h
  | .not e =>
    rw [Expr.evaluate] at h
    obtain ⟨value, -, h⟩ := bind_eq_ok.mp h
    obtain ⟨b, -, h⟩ := bind_eq_ok.mp h
    cases h
    exact ⟨.logical, rfl, Coercion.type_ofTruth _⟩
  | .negate e =>
    rw [Expr.evaluate] at h
    obtain ⟨value, -, h⟩ := bind_eq_ok.mp h
    obtain ⟨operand, -, h⟩ := bind_eq_ok.mp h
    obtain ⟨result, -, h⟩ := bind_eq_ok.mp h
    cases h
    exact ⟨.json, rfl, (ExprType.fitted_json expected).symm⟩
  | .binary op left right =>
    rw [Expr.evaluate] at h
    rw [Expr.ownType]
    split at h
    · next hlogical =>
      rw [hlogical, Bool.true_or, if_pos rfl]
      split at h
      · cases h
      obtain ⟨l, -, h⟩ := bind_eq_ok.mp h
      obtain ⟨a, -, h⟩ := bind_eq_ok.mp h
      split at h
      · cases h
        exact ⟨.logical, rfl, Coercion.type_ofTruth _⟩
      · obtain ⟨r, -, h⟩ := bind_eq_ok.mp h
        obtain ⟨b, -, h⟩ := bind_eq_ok.mp h
        cases h
        exact ⟨.logical, rfl, Coercion.type_ofTruth _⟩
    · next hlogical =>
      obtain ⟨l, -, h⟩ := bind_eq_ok.mp h
      obtain ⟨a, -, h⟩ := bind_eq_ok.mp h
      obtain ⟨r, -, h⟩ := bind_eq_ok.mp h
      obtain ⟨b, -, h⟩ := bind_eq_ok.mp h
      split at h
      · next hcomparison =>
        cases h
        exact ⟨.logical, by simp [hcomparison], Coercion.type_ofTruth _⟩
      · next hcomparison =>
        rw [Coercion.type_ofCalculation h]
        exact ⟨.json, by simp [hlogical, hcomparison], (ExprType.fitted_json expected).symm⟩

theorem Expr.not_connective_of_nodes {e : Expr} {v : ExprValue}
    (h : e.evaluate ctx current .nodes = .ok v) : e.isConnective = false := by
  match e with
  | .binary op left right =>
    rw [Expr.isConnective, Bool.eq_false_iff]
    intro hlogical
    rw [Expr.evaluate, if_pos hlogical, if_pos rfl] at h
    cases h
  | .null | .bool _ | .integer _ | .float _ | .string _ | .variable _ | .query _ | .singular _
  | .call _ _ | .not _ | .negate _ => rfl

theorem types_evaluateArguments {args : List Expr} {types : List ExprType} {function : String}
    {position : Nat} {values : List ExprValue}
    (h : evaluateArguments ctx function position args types current = .ok values)
    (hlength : args.length = types.length) : values.map ExprValue.type = types := by
  induction args generalizing types position values with
  | nil =>
    cases h
    exact (List.eq_nil_of_length_eq_zero hlength.symm).symm
  | cons e rest ih =>
    obtain ⟨t, types, rfl⟩ := List.exists_cons_of_length_eq_add_one hlength.symm
    rw [evaluateArguments] at h
    obtain ⟨v, -, h⟩ := bind_eq_ok.mp h
    obtain ⟨w, hw, h⟩ := bind_eq_ok.mp h
    obtain ⟨ws, hws, h⟩ := bind_eq_ok.mp h
    cases h
    rw [List.map_cons, Coercion.type_toParam hw, ih hws (Nat.succ.inj hlength)]

end JsonPath
