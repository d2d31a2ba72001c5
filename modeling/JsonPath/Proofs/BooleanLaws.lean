import JsonPath.Standard
import JsonPath.Proofs.Agreement
import JsonPath.Proofs.Parallel

set_option autoImplicit false

/-!
# Laws of the logical operators

What an operand contributes to a logical operator is its truth, or an error. The operators join
these outcomes from the left and leave the right one alone where the left one decides, and such
joins have the laws of boolean algebra as far as they reach their operands in the same order. The
type at which an operand is evaluated depends on the operators around it, and so does the text of
its errors, but not whether it has one.
-/
namespace JsonPath

namespace BinaryOp

/-- The second outcome counts only if the first one does not decide. -/
def join (op : BinaryOp) (x y : Except EvalError Bool) : Except EvalError Bool := do
  let a ← x
  if op.decided a then pure a else y

variable (op : BinaryOp) (x y z : Except EvalError Bool)

theorem join_ok (a : Bool) : op.join (.ok a) y = if op.decided a then .ok a else y := rfl

theorem join_assoc : op.join (op.join x y) z = op.join x (op.join y z) := by
  cases x with
  | error e => rfl
  | ok a =>
    rw [join_ok, join_ok]
    by_cases h : op.decided a = true
    · rw [if_pos h, if_pos h, join_ok, if_pos h]
    · rw [if_neg h, if_neg h]

theorem not_join_and :
    Bool.not <$> BinaryOp.and.join x y = BinaryOp.or.join (Bool.not <$> x) (Bool.not <$> y) := by
  rcases x with e | _ | _ <;> rfl

theorem not_join_or :
    Bool.not <$> BinaryOp.or.join x y = BinaryOp.and.join (Bool.not <$> x) (Bool.not <$> y) := by
  rcases x with e | _ | _ <;> rfl

theorem join_and_or :
    BinaryOp.and.join x (BinaryOp.or.join y z) =
      BinaryOp.or.join (BinaryOp.and.join x y) (BinaryOp.and.join x z) := by
  rcases x with e | _ | _
  · rfl
  · rfl
  · rfl

variable {x y} {x' y' : Except EvalError Bool}

theorem join_parallel (hx : Parallel Eq x x') (hy : Parallel Eq y y') :
    Parallel Eq (op.join x y) (op.join x' y') := by
  refine hx.bind ?_
  rintro a _ rfl
  split
  · exact .ok rfl
  · exact hy

end BinaryOp

namespace Coercion

theorem toTruth_parallel (mode : Mode) (context context' : EvalError.Context) (v : ExprValue) :
    Parallel Eq (toTruth mode context v) (toTruth mode context' v) := by
  unfold toTruth
  split
  · exact .ok rfl
  · exact .ok rfl
  · split
    · exact .ok rfl
    · exact .error _ _
  · exact .error _ _

theorem operandTruth_parallel (mode : Mode) (type : ExprType)
    (context context' : EvalError.Context) (v : ExprValue) :
    Parallel Eq (operandTruth mode type context v) (operandTruth mode type context' v) := by
  cases type with
  | json =>
    unfold operandTruth
    dsimp only
    split
    · exact .ok rfl
    · exact .ok rfl
    · exact .error _ _
  | _ => exact toTruth_parallel mode context context' v

theorem operandTruth_ofTruth (mode : Mode) (type : ExprType) (context : EvalError.Context)
    (b : Bool) : operandTruth mode type context (ofTruth type b) = .ok b := by
  cases type <;> rfl

end Coercion

section
variable (ctx : Context) (current : Json)

def Expr.truth (type : ExprType) (context : EvalError.Context) (e : Expr) :
    Except EvalError Bool := do
  let v ← e.evaluate ctx current type
  Coercion.operandTruth ctx.mode type context v

theorem Expr.truth_parallel (type : ExprType) (context context' : EvalError.Context) (e : Expr) :
    Parallel Eq (e.truth ctx current type context) (e.truth ctx current type context') := by
  refine (Parallel.refl (R := Eq) (fun _ => rfl) (e.evaluate ctx current type)).bind ?_
  rintro v _ rfl
  exact Coercion.operandTruth_parallel ctx.mode type context context' v

theorem Expr.truth_of_evaluate {type : ExprType} {e : Expr} {x : Except EvalError Bool}
    (h : e.evaluate ctx current type = Coercion.ofTruth type <$> x)
    (context : EvalError.Context) : e.truth ctx current type context = x := by
  rw [Expr.truth, h]
  cases x with
  | error e => rfl
  | ok b => exact Coercion.operandTruth_ofTruth ctx.mode type context b

theorem Expr.evaluate_connective {op : BinaryOp} (hop : op.isLogical = true) {type : ExprType}
    (htype : type ≠ .nodes) (a b : Expr) :
    (Expr.binary op a b).evaluate ctx current type =
      Coercion.ofTruth type <$>
        op.join (a.truth ctx current type (.operands op))
          (b.truth ctx current type (.operands op)) := by
  rw [Expr.evaluate, if_pos hop, if_neg htype]
  simp only [BinaryOp.join, Expr.truth, bind_assoc, map_bind]
  refine bind_congr fun l => bind_congr fun a => ?_
  split
  · rfl
  · simp only [map_eq_pure_bind, bind_assoc]

theorem Expr.evaluate_connective_nodes {op : BinaryOp} (hop : op.isLogical = true) (a b : Expr) :
    (Expr.binary op a b).evaluate ctx current .nodes =
      .error (.typeMismatch (.operands op) (.type .nodes) (.type .logical)) := by
  rw [Expr.evaluate, if_pos hop, if_pos rfl]

theorem Expr.evaluate_not (type : ExprType) (e : Expr) :
    (Expr.not e).evaluate ctx current type =
      Coercion.ofTruth type <$> Bool.not <$> e.truth ctx current .logical .notOperand := by
  rw [Expr.evaluate, Expr.truth]
  simp only [map_eq_pure_bind, bind_assoc, pure_bind]
  rfl

theorem Expr.truth_connective {op : BinaryOp} (hop : op.isLogical = true) {type : ExprType}
    (htype : type ≠ .nodes) (context : EvalError.Context) (a b : Expr) :
    (Expr.binary op a b).truth ctx current type context =
      op.join (a.truth ctx current type (.operands op))
        (b.truth ctx current type (.operands op)) :=
  Expr.truth_of_evaluate ctx current (Expr.evaluate_connective ctx current hop htype a b) context

theorem Expr.truth_not (type : ExprType) (context : EvalError.Context) (e : Expr) :
    (Expr.not e).truth ctx current type context =
      Bool.not <$> e.truth ctx current .logical .notOperand :=
  Expr.truth_of_evaluate ctx current (Expr.evaluate_not ctx current type e) context

theorem Expr.evaluate_regrouped {op : BinaryOp} (hop : op.isLogical = true) (type : ExprType)
    (a b c : Expr) :
    (Expr.binary op (.binary op a b) c).evaluate ctx current type =
      (Expr.binary op a (.binary op b c)).evaluate ctx current type := by
  by_cases htype : type = .nodes
  · rw [htype, evaluate_connective_nodes ctx current hop, evaluate_connective_nodes ctx current hop]
  · rw [evaluate_connective ctx current hop htype, evaluate_connective ctx current hop htype,
      truth_connective ctx current hop htype, truth_connective ctx current hop htype,
      BinaryOp.join_assoc]

/-- Under a negation the operands are evaluated as truth values whatever is expected, and so they are
if each has a negation of its own. -/
theorem Expr.evaluate_negated_connective {op dual : BinaryOp} (hop : op.isLogical = true)
    (hdual : dual.isLogical = true)
    (hjoin : ∀ x y, Bool.not <$> op.join x y = dual.join (Bool.not <$> x) (Bool.not <$> y))
    {type : ExprType} (htype : type ≠ .nodes) (a b : Expr) :
    Parallel Eq ((Expr.not (.binary op a b)).evaluate ctx current type)
      ((Expr.binary dual (.not a) (.not b)).evaluate ctx current type) := by
  rw [evaluate_not, evaluate_connective ctx current hdual htype,
    truth_connective ctx current hop (by decide), truth_not, truth_not, hjoin]
  exact (BinaryOp.join_parallel dual ((truth_parallel ctx current _ _ _ a).map_congr Bool.not)
    ((truth_parallel ctx current _ _ _ b).map_congr Bool.not)).map_congr _

theorem Expr.evaluate_distributed {type : ExprType} (htype : type ≠ .nodes) (a b c : Expr) :
    Parallel Eq ((Expr.binary .and a (.binary .or b c)).evaluate ctx current type)
      ((Expr.binary .or (.binary .and a b) (.binary .and a c)).evaluate ctx current type) := by
  rw [evaluate_connective ctx current (by rfl) htype, evaluate_connective ctx current (by rfl) htype,
    truth_connective ctx current (by rfl) htype, truth_connective ctx current (by rfl) htype,
    truth_connective ctx current (by rfl) htype, BinaryOp.join_and_or]
  refine (BinaryOp.join_parallel .or ?_ ?_).map_congr _
  · exact BinaryOp.join_parallel .and (.of_eq rfl) (truth_parallel ctx current _ _ _ b)
  · exact BinaryOp.join_parallel .and (.of_eq rfl) (truth_parallel ctx current _ _ _ c)

theorem Expr.operand_eq (context context' : EvalError.Context) (e : Expr) :
    (e.evaluate ctx current .json >>= Coercion.toJson ctx.mode context) =
      e.evaluate ctx current .json >>= Coercion.toJson ctx.mode context' := by
  refine bind_congr_of_ok fun v hv => ?_
  obtain ⟨own, -, htype⟩ := Expr.type_evaluate hv
  cases v with
  | json v => rfl
  | _ => cases htype

theorem Expr.evaluate_comparison {op : BinaryOp} (hlogical : op.isLogical = false)
    (hop : op.isComparison = true) (context : EvalError.Context) (type : ExprType) (a b : Expr) :
    (Expr.binary op a b).evaluate ctx current type = (do
      let l ← a.evaluate ctx current .json >>= Coercion.toJson ctx.mode context
      let r ← b.evaluate ctx current .json >>= Coercion.toJson ctx.mode context
      pure (Coercion.ofTruth type (op.compare l r))) := by
  rw [Expr.evaluate, if_neg (by simp [hlogical]), operand_eq ctx current context (.operands op) a,
    operand_eq ctx current context (.operands op) b]
  simp only [hop, if_true, bind_assoc]

theorem Expr.evaluate_notEqual (type : ExprType) (a b : Expr) :
    (Expr.binary .notEqual a b).evaluate ctx current type =
      (Expr.not (.binary .equal a b)).evaluate ctx current type := by
  rw [evaluate_not, truth,
    @evaluate_comparison ctx current .notEqual rfl rfl .notOperand,
    @evaluate_comparison ctx current .equal rfl rfl .notOperand]
  simp only [map_bind, bind_assoc, pure_bind, Coercion.operandTruth_ofTruth]
  rfl

end

/-- Conjunctions and disjunctions may be regrouped; where truth is expected they are each other's
duals under negation, and conjunction distributes over disjunction. Each side fails if the other
one does. An inequality is a negated equality, with the same errors. -/
theorem evaluate_boolean_laws (ctx : Context) (current : Json) (a b c : Expr) :
    (∀ type, (Expr.binary .and (.binary .and a b) c).evaluate ctx current type =
        (Expr.binary .and a (.binary .and b c)).evaluate ctx current type ∧
      (Expr.binary .or (.binary .or a b) c).evaluate ctx current type =
        (Expr.binary .or a (.binary .or b c)).evaluate ctx current type ∧
      (Expr.binary .notEqual a b).evaluate ctx current type =
        (Expr.not (.binary .equal a b)).evaluate ctx current type) ∧
    ∀ type, type ≠ .nodes →
      Parallel Eq ((Expr.not (.binary .and a b)).evaluate ctx current type)
        ((Expr.binary .or (.not a) (.not b)).evaluate ctx current type) ∧
      Parallel Eq ((Expr.not (.binary .or a b)).evaluate ctx current type)
        ((Expr.binary .and (.not a) (.not b)).evaluate ctx current type) ∧
      Parallel Eq ((Expr.binary .and a (.binary .or b c)).evaluate ctx current type)
        ((Expr.binary .or (.binary .and a b) (.binary .and a c)).evaluate ctx current type) := by
  refine ⟨fun type => ⟨?_, ?_, ?_⟩, fun type htype => ⟨?_, ?_, ?_⟩⟩
  · exact Expr.evaluate_regrouped ctx current (by rfl) type a b c
  · exact Expr.evaluate_regrouped ctx current (by rfl) type a b c
  · exact Expr.evaluate_notEqual ctx current type a b
  · exact Expr.evaluate_negated_connective ctx current (by rfl) (by rfl) BinaryOp.not_join_and
      htype a b
  · exact Expr.evaluate_negated_connective ctx current (by rfl) (by rfl) BinaryOp.not_join_or
      htype a b
  · exact Expr.evaluate_distributed ctx current htype a b c

theorem evaluate_boolean_laws_unknown :
    let ctx : Context := ⟨.null, .standard, .strict⟩
    let current := Json.object [("a", .integer 1)]
    let holds : Expr := .binary .equal (.singular ⟨.current, [.children [.member "a"]]⟩) (.integer 1)
    let fails : Expr := .variable "x"
    ExprType.json ≠ .nodes ∧
      (Expr.binary .and holds (.binary .and (.not holds) fails)).evaluate ctx current .json =
        .ok (.ofJson (.bool false)) ∧
      ∃ e, (Expr.binary .or (.not holds) (.not fails)).evaluate ctx current .json = .error e := by
  intro ctx current holds fails
  have htype : ExprType.json ≠ .nodes := by decide
  have hlaws := evaluate_boolean_laws ctx current holds
  have hregrouped := ((hlaws (.not holds) fails).1 .json).1
  have hnegated := ((hlaws fails fails).2 .json htype).1
  exact ⟨htype, hregrouped.symm.trans (by rfl),
    hnegated.error_iff.mp ⟨.unknownVariable "x", by rfl⟩⟩

end JsonPath
