import JsonPath.Standard
import JsonPath.Proofs.Filters

set_option autoImplicit false

/-!
# Conditions that do not look at the candidate

A filter gives its candidate to the relative queries of its condition. A condition that has none
outside the filters of its own queries, which have candidates of their own, evaluates to the same at
every candidate, so that its filter keeps all children of a node or none.
-/
namespace JsonPath

mutual
/-- No query starts from the value under test, other than in the filters of other queries. -/
def Expr.isClosed : Expr → Bool
  | .query p => p.isAbsolute
  | .singular p => p.isAbsolute
  | .call _ args => argumentsClosed args
  | .not e => e.isClosed
  | .negate e => e.isClosed
  | .binary _ left right => left.isClosed && right.isClosed
  | _ => true

def argumentsClosed : List Expr → Bool
  | [] => true
  | e :: rest => e.isClosed && argumentsClosed rest
end

/-- The answers of the function do not depend on the value under test. -/
def Function.IgnoresCurrent (f : Function) : Prop :=
  ∀ (root current current' : Json) (args : List ExprValue),
    f.apply root current args = f.apply root current' args

def Environment.IgnoresCurrent (environment : Environment) : Prop :=
  ∀ (name : String) (f : Function), environment.findFunction name = some f → f.IgnoresCurrent

theorem Environment.builtIns_ignoresCurrent (engine : IRegexp.Engine) :
    (Environment.builtIns engine).IgnoresCurrent :=
  fun _ _ hf root current current' args => builtIns_apply hf root root current current' args

theorem Path.select_absolute (ctx : Context) {p : Path} (h : p.isAbsolute = true) (n m : Node) :
    p.select ctx n = p.select ctx m := by
  match p with
  | ⟨.root, _⟩ => rfl
  | ⟨.current, _⟩ => cases h

section
variable {ctx : Context}

mutual
theorem Expr.evaluate_closed (henv : ctx.environment.IgnoresCurrent) (e : Expr)
    (h : e.isClosed = true) (current current' : Json) (expected : ExprType) :
    e.evaluate ctx current expected = e.evaluate ctx current' expected := by
  match e with
  | .null | .bool _ | .integer _ | .float _ | .string _ | .variable _ =>
    rw [Expr.evaluate, Expr.evaluate]
  | .query p => rw [Expr.evaluate, Expr.evaluate, Path.select_absolute ctx h _ (Node.root current')]
  | .singular p =>
    rw [Expr.evaluate, Expr.evaluate, Path.select_absolute ctx h _ (Node.root current')]
  | .call name args =>
    have hargs := evaluateArguments_closed henv args h name 1
    rw [Expr.evaluate, Expr.evaluate]
    cases hname : ctx.environment.findFunction name with
    | none => rfl
    | some f =>
      have happly := henv name f hname ctx.root current current'
      simp only [hargs f.params current current', happly]
  | .not e => rw [Expr.evaluate, Expr.evaluate, Expr.evaluate_closed henv e h current current']
  | .negate e => rw [Expr.evaluate, Expr.evaluate, Expr.evaluate_closed henv e h current current']
  | .binary op left right =>
    rw [Expr.isClosed, Bool.and_eq_true] at h
    have hleft := Expr.evaluate_closed henv left h.1 current current'
    have hright := Expr.evaluate_closed henv right h.2 current current'
    simp only [Expr.evaluate, hleft, hright]

theorem evaluateArguments_closed (henv : ctx.environment.IgnoresCurrent) (args : List Expr)
    (h : argumentsClosed args = true) (function : String) (position : Nat) (types : List ExprType)
    (current current' : Json) :
    evaluateArguments ctx function position args types current =
      evaluateArguments ctx function position args types current' := by
  match args, types with
  | [], _ => rfl
  | _ :: _, [] => rfl
  | e :: rest, t :: types =>
    rw [argumentsClosed, Bool.and_eq_true] at h
    rw [evaluateArguments, evaluateArguments, Expr.evaluate_closed henv e h.1 current current',
      evaluateArguments_closed henv rest h.2 function (position + 1) types current current']
end

theorem Selector.apply_filter_closed (henv : ctx.environment.IgnoresCurrent) {e : Expr}
    (h : e.isClosed = true) {n : Node} {ns : List Node}
    (hns : (Selector.filter e).apply ctx n = .ok ns) : ns = n.children ∨ ns = [] := by
  obtain ⟨keep, hkeep, rfl⟩ := Selector.apply_filter_eq_ok.mp hns
  have hsame : ∀ child ∈ n.children, ∀ other ∈ n.children, keep child = keep other := by
    intro child hchild other hother
    have hevaluate := Expr.evaluate_closed henv e h child.value other.value .logical
    have hholds : e.holds ctx child.value = e.holds ctx other.value := by
      rw [Expr.holds, Expr.holds, hevaluate]
    rw [hkeep child hchild, hkeep other hother] at hholds
    exact Except.ok.inj hholds
  by_cases hsome : ∃ child ∈ n.children, keep child = true
  · obtain ⟨child, hchild, hkept⟩ := hsome
    refine .inl (List.filter_eq_self.mpr fun other hother => ?_)
    rw [hsame other hother child hchild, hkept]
  · refine .inr (List.filter_eq_nil_iff.mpr fun child hchild hkept => ?_)
    exact hsome ⟨child, hchild, hkept⟩

end

/-- A condition without relative queries of its own has the same outcome at every candidate, if
functions do not look at the candidate either. A filter that succeeds with it keeps all or none. -/
theorem evaluate_closed_eq (ctx : Context) (henv : ctx.environment.IgnoresCurrent) (e : Expr)
    (hclosed : e.isClosed = true) :
    (∀ (current current' : Json) (expected : ExprType),
      e.evaluate ctx current expected = e.evaluate ctx current' expected) ∧
    ∀ (n : Node) (ns : List Node), (Selector.filter e).apply ctx n = .ok ns →
      ns = n.children ∨ ns = [] :=
  ⟨fun current current' expected => Expr.evaluate_closed henv e hclosed current current' expected,
    fun _ _ hns => Selector.apply_filter_closed henv hclosed hns⟩

theorem evaluate_closed_eq_nested :
    let inner : Expr := .binary .greater
      (.singular ⟨.current, [.children [.member "x"]]⟩) (.integer 1)
    let e : Expr := .binary .greater
      (.call "count" [.query ⟨.root, [.descendants [.filter inner]]⟩]) (.integer 0)
    let small := Json.object [("x", .integer 1)]
    let large := Json.object [("x", .integer 2)]
    let ctx : Context := ⟨.array [small, large], .standard, .strict⟩
    let n : Node := Node.root ctx.root
    let ns : List Node := [⟨Location.root.index 0, small⟩, ⟨Location.root.index 1, large⟩]
    ctx.environment.IgnoresCurrent ∧ e.isClosed = true ∧ inner.isClosed = false ∧
      e.evaluate ctx small .logical = e.evaluate ctx large .logical ∧
      inner.evaluate ctx small .logical ≠ inner.evaluate ctx large .logical ∧
      (Selector.filter e).apply ctx n = .ok ns ∧ (ns = n.children ∨ ns = []) := by
  intro inner e small large ctx n ns
  have henv : ctx.environment.IgnoresCurrent := Environment.builtIns_ignoresCurrent _
  have hclosed : e.isClosed = true := by rfl
  have h := evaluate_closed_eq ctx henv e hclosed
  have hns : (Selector.filter e).apply ctx n = .ok ns := by with_unfolding_all rfl
  have hsmall : inner.evaluate ctx small .logical = .ok (.logical false) := by
    with_unfolding_all rfl
  have hlarge : inner.evaluate ctx large .logical = .ok (.logical true) := by
    with_unfolding_all rfl
  refine ⟨henv, hclosed, by rfl, h.1 small large .logical, ?_, hns, h.2 n ns hns⟩
  rw [hsmall, hlarge]
  simp

end JsonPath
