import JsonPath.Proofs.Everywhere
import JsonPath.Proofs.Typing

set_option autoImplicit false

/-!
# Contexts that cannot be told apart

A query sees no more of its context than the variables and functions that it names and the root that
it starts from, and of a function no more than its types and what it answers to arguments of these
types. Contexts that agree on so much give the same results and the same errors.
-/
namespace JsonPath

/-- The functions have the same types and, in documents with these roots, the same answers to
arguments of these types. -/
structure Function.Agree (root root' : Json) (f g : Function) : Prop where
  params : f.params = g.params
  result : f.result = g.result
  apply : ∀ (current : Json) (args : List ExprValue), args.map ExprValue.type = f.params →
    f.apply root current args = g.apply root' current args

theorem Function.Agree.of_same {root root' : Json} {callee : Option Function}
    (h : ∀ f ∈ callee, Function.Agree root root' f f) :
    Option.Rel (Function.Agree root root') callee callee := by
  cases callee with
  | none => exact .none
  | some f => exact .some (h f rfl)

/-- The expression itself does not tell one root and environment from the other. -/
def AgreeAt (root root' : Json) (environment environment' : Environment) : Expr → Prop
  | .variable name => environment.findVariable name = environment'.findVariable name
  | .call name _ =>
    Option.Rel (Function.Agree root root') (environment.findFunction name)
      (environment'.findFunction name)
  | .query p | .singular p => p.start = .root → root = root'
  | _ => True

theorem bind_congr_of_ok {α β : Type} {x : Except EvalError α} {f g : α → Except EvalError β}
    (h : ∀ a, x = .ok a → f a = g a) : x >>= f = x >>= g := by
  cases x with
  | error e => rfl
  | ok a => exact h a rfl

section
variable {root root' : Json} {environment environment' : Environment} {mode : Mode}

mutual
theorem Segment.apply_agree (s : Segment)
    (h : s.Everywhere (AgreeAt root root' environment environment')) (n : Node) :
    s.apply ⟨root, environment, mode⟩ n = s.apply ⟨root', environment', mode⟩ n := by
  match s with
  | .children ss => exact applySelectors_agree ss h n
  | .descendants ss =>
    have hvisit : (fun visited => applySelectors ⟨root, environment, mode⟩ ss visited) =
        fun visited => applySelectors ⟨root', environment', mode⟩ ss visited :=
      funext fun visited => applySelectors_agree ss h visited
    rw [Segment.apply, Segment.apply, hvisit]

theorem applySelectors_agree (ss : List Selector)
    (h : SelectorsEverywhere (AgreeAt root root' environment environment') ss) (n : Node) :
    applySelectors ⟨root, environment, mode⟩ ss n =
      applySelectors ⟨root', environment', mode⟩ ss n := by
  match ss with
  | [] => rfl
  | s :: rest =>
    rw [applySelectors, applySelectors, Selector.apply_agree s h.1 n,
      applySelectors_agree rest h.2 n]

theorem Selector.apply_agree (s : Selector)
    (h : s.Everywhere (AgreeAt root root' environment environment')) (n : Node) :
    s.apply ⟨root, environment, mode⟩ n = s.apply ⟨root', environment', mode⟩ n := by
  match s with
  | .wildcard | .member _ | .index _ | .slice _ _ _ => rfl
  | .filter e =>
    have htest : ∀ child : Node, e.evaluate ⟨root, environment, mode⟩ child.value .logical =
        e.evaluate ⟨root', environment', mode⟩ child.value .logical :=
      fun child => Expr.evaluate_agree e h child.value .logical
    simp only [Selector.apply, htest]

theorem applySegments_agree (ss : List Segment)
    (h : SegmentsEverywhere (AgreeAt root root' environment environment') ss) (ns : List Node) :
    applySegments ⟨root, environment, mode⟩ ss ns =
      applySegments ⟨root', environment', mode⟩ ss ns := by
  match ss with
  | [] => rfl
  | s :: rest =>
    have hfirst : (fun n => s.apply ⟨root, environment, mode⟩ n) =
        fun n => s.apply ⟨root', environment', mode⟩ n :=
      funext fun n => Segment.apply_agree s h.1 n
    have hrest : applySegments ⟨root, environment, mode⟩ rest =
        applySegments ⟨root', environment', mode⟩ rest :=
      funext fun ns => applySegments_agree rest h.2 ns
    rw [applySegments, applySegments, hfirst, hrest]

theorem Path.select_agree (p : Path)
    (h : p.Everywhere (AgreeAt root root' environment environment'))
    (hroot : p.start = .root → root = root') (n : Node) :
    p.select ⟨root, environment, mode⟩ n = p.select ⟨root', environment', mode⟩ n := by
  match p with
  | ⟨.root, ss⟩ =>
    have hsame : root = root' := hroot rfl
    rw [Path.select, Path.select, applySegments_agree ss h]
    simp only [hsame]
  | ⟨.current, ss⟩ => rw [Path.select, Path.select, applySegments_agree ss h]

theorem Expr.evaluate_agree (e : Expr)
    (h : e.Everywhere (AgreeAt root root' environment environment')) (current : Json)
    (expected : ExprType) :
    e.evaluate ⟨root, environment, mode⟩ current expected =
      e.evaluate ⟨root', environment', mode⟩ current expected := by
  match e with
  | .null | .bool _ | .integer _ | .float _ | .string _ => rfl
  | .variable name =>
    have hname : environment.findVariable name = environment'.findVariable name := h
    rw [Expr.evaluate, Expr.evaluate, hname]
  | .query p => rw [Expr.evaluate, Expr.evaluate, Path.select_agree p h.2 h.1]
  | .singular p => rw [Expr.evaluate, Expr.evaluate, Path.select_agree p h.2 h.1]
  | .call name args =>
    have hcallee : Option.Rel (Function.Agree root root') (environment.findFunction name)
      (environment'.findFunction name) := h.1
    rw [Expr.evaluate, Expr.evaluate]
    dsimp only
    generalize environment.findFunction name = callee at hcallee ⊢
    generalize environment'.findFunction name = callee' at hcallee ⊢
    cases hcallee with
    | none => rfl
    | @some f g hfg =>
      have harity : f.arity = g.arity := congrArg List.length hfg.params
      simp only [harity]
      split
      · rfl
      next hargs =>
      have hlength : args.length = f.params.length := by
        rw [Decidable.not_not.mp hargs, ← harity, Function.arity]
      rw [← evaluateArguments_agree args h.2, ← hfg.params, ← hfg.result]
      refine bind_congr_of_ok fun values hvalues => ?_
      rw [hfg.apply current values (types_evaluateArguments hvalues hlength)]
  | .not e => rw [Expr.evaluate, Expr.evaluate, Expr.evaluate_agree e h.2]
  | .negate e => rw [Expr.evaluate, Expr.evaluate, Expr.evaluate_agree e h.2]
  | .binary op left right =>
    have hleft := Expr.evaluate_agree left h.2.1 current
    have hright := Expr.evaluate_agree right h.2.2 current
    simp only [Expr.evaluate, hleft, hright]

theorem evaluateArguments_agree (args : List Expr)
    (h : ArgumentsEverywhere (AgreeAt root root' environment environment') args)
    (function : String) (position : Nat) (types : List ExprType) (current : Json) :
    evaluateArguments ⟨root, environment, mode⟩ function position args types current =
      evaluateArguments ⟨root', environment', mode⟩ function position args types current := by
  match args, types with
  | [], _ => rfl
  | _ :: _, [] => rfl
  | e :: rest, t :: types =>
    rw [evaluateArguments, evaluateArguments, Expr.evaluate_agree e h.1,
      evaluateArguments_agree rest h.2]
end

end

/-- The environments have the same variables, and functions of the same names that agree on
arguments of the declared types, whatever the document. -/
structure Environment.Agree (environment environment' : Environment) : Prop where
  vars : ∀ name, environment.findVariable name = environment'.findVariable name
  functions : ∀ (root : Json) (name : String), Option.Rel (Function.Agree root root)
    (environment.findFunction name) (environment'.findFunction name)

theorem Environment.Agree.agreeAt {environment environment' : Environment}
    (h : environment.Agree environment') (root : Json) (e : Expr) :
    AgreeAt root root environment environment' e := by
  match e with
  | .variable name => exact h.vars name
  | .call name _ => exact h.functions root name
  | .query _ | .singular _ => exact fun _ => rfl
  | .null | .bool _ | .integer _ | .float _ | .string _ | .not _ | .negate _ | .binary _ _ _ =>
    trivial

/-- Whatever functions do, a value has the type that its expression and the expected type call for.
What functions do to other arguments than those of the declared number and types is never seen. -/
theorem evaluate_typed (document : Json) (environment : Environment) (mode : Mode) :
    (∀ (e : Expr) (current : Json) (expected : ExprType) (v : ExprValue),
      e.evaluate ⟨document, environment, mode⟩ current expected = .ok v →
        (expected = .json → v.type = .json) ∧
        (expected = .logical →
          v.type ≠ .nodes ∧ (v.type = .json ↔ e.ownType environment = some .json)) ∧
        (expected = .nodes →
          e.isConnective = false ∧ e.ownType environment = some v.type)) ∧
    ∀ environment' : Environment, environment.Agree environment' →
      (∀ p : Path, p.evaluate document environment mode = p.evaluate document environment' mode) ∧
      ∀ (e : Expr) (current : Json) (expected : ExprType),
        e.evaluate ⟨document, environment, mode⟩ current expected =
          e.evaluate ⟨document, environment', mode⟩ current expected := by
  constructor
  · intro e current expected v h
    obtain ⟨own, hown, htype⟩ := Expr.type_evaluate h
    refine ⟨?_, ?_, ?_⟩
    · rintro rfl
      exact htype
    · rintro rfl
      rw [hown, htype, ExprType.fitted]
      cases own <;> simp
    · rintro rfl
      exact ⟨Expr.not_connective_of_nodes h, by rw [hown, htype]; rfl⟩
  · intro environment' h
    have hagree := h.agreeAt document
    constructor
    · intro p
      have hp := Path.everywhere_of_forall hagree p
      exact Path.select_agree p hp (fun _ => rfl) (Node.root document)
    · intro e current expected
      exact Expr.evaluate_agree e (Expr.everywhere_of_forall hagree e) current expected

theorem evaluate_typed_implementations :
    let answer (otherwise : ExprValue) : Function :=
      ⟨[.logical], .json, fun _ _ args =>
        match args with
        | [.logical b] => .ok (.ofJson (.bool !b))
        | _ => .ok otherwise⟩
    let environment := Environment.empty.withFunction "opposite" (answer .absent)
    let environment' := Environment.empty.withFunction "opposite" (answer (.nodes []))
    let document := Json.array [.bool true, .null]
    let e : Expr := .call "opposite" [.query ⟨.current, [.children [.wildcard]]⟩]
    let p : Path := ⟨.root, [.children [.filter (.binary .equal e (.bool true))]]⟩
    let v : ExprValue := .ofJson (.bool false)
    (e.evaluate ⟨document, environment, .strict⟩ document .logical = .ok v ∧
      (v.type = .json ↔ e.ownType environment = some .json)) ∧
    environment.Agree environment' ∧
      p.evaluate document environment .strict = p.evaluate document environment' .strict := by
  intro answer environment environment' document e p v
  have hagree : environment.Agree environment' := by
    refine ⟨fun _ => rfl, fun root name => ?_⟩
    by_cases hname : name = "opposite"
    · rw [hname]
      refine .some ⟨rfl, rfl, fun current args hargs => ?_⟩
      obtain ⟨value, rfl⟩ : ∃ value, args = [value] :=
        List.length_eq_one_iff.mp ((List.length_map _).symm.trans (congrArg List.length hargs))
      cases value with
      | logical b => rfl
      | _ => cases hargs
    · have hnone : ∀ f : Function,
          (Environment.empty.withFunction "opposite" f).findFunction name = none := by
        intro f
        exact (NameMap.get?_insert .empty "opposite" f name).trans (if_neg hname)
      rw [hnone, hnone]
      exact .none
  have h := evaluate_typed document environment .strict
  have hvalue : e.evaluate ⟨document, environment, .strict⟩ document .logical = .ok v := by rfl
  exact ⟨⟨hvalue, ((h.1 e document .logical v hvalue).2.1 rfl).2⟩, hagree, (h.2 _ hagree).1 p⟩

end JsonPath
