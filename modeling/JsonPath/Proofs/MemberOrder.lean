import JsonPath.Proofs.Descent
import JsonPath.Proofs.Everywhere
import JsonPath.Proofs.Parallel
import JsonPath.Proofs.SingularPaths

set_option autoImplicit false

/-!
# The order of members

Strict evaluation runs in parallel on two documents that differ in the order of members only: it
fails on both, or selects nodes at the same locations, in an order of its own for each document.
-/
namespace JsonPath

namespace Node

/-- The same place, with values that differ in the order of members only. -/
inductive Alike : Node → Node → Prop
  | mk (l : Location) {v w : Json} (h : v.Alike w) : Alike ⟨l, v⟩ ⟨l, w⟩

theorem Alike.root {v w : Json} (h : v.Alike w) : (root v).Alike (root w) := .mk _ h

theorem Alike.location {n m : Node} (h : n.Alike m) : n.location = m.location := by
  cases h
  rfl

theorem Alike.value {n m : Node} (h : n.Alike m) : n.value.Alike m.value := by
  cases h with
  | mk _ h => exact h

theorem values_same {ns ms : List Node} (h : Rearranged Alike ns ms) :
    Rearranged Json.Same (ns.map value) (ms.map value) :=
  h.map fun _ _ hnode => .inr hnode.value

theorem elements_alike (l : Location) {items others : List Json}
    (h : List.Forall₂ Json.Alike items others) (i : Nat) :
    Rearranged Alike (elements l i items) (elements l i others) := by
  induction h generalizing i with
  | nil => exact .nil
  | cons hfirst _ ih => exact .cons (.mk _ hfirst) (ih (i + 1))

theorem children_alike {n m : Node} (h : n.Alike m) :
    Rearranged Alike n.children m.children := by
  obtain ⟨l, hvalue⟩ := h
  cases hvalue.reordered with
  | array _ => exact elements_alike l hvalue.items 0
  | object _ =>
    refine hvalue.members.map ?_
    rintro _ _ ⟨hmember⟩
    exact .mk _ hmember
  | _ => exact .nil

theorem found_alike (l : Location) {x y : Option Json} :
    Option.Rel Json.Alike x y →
      Rearranged Alike (match x with | some v => [⟨l, v⟩] | none => [])
        (match y with | some v => [⟨l, v⟩] | none => []) := by
  intro h
  cases h with
  | none => exact .nil
  | some h => exact .cons (.mk l h) .nil

theorem memberNamed_alike {n m : Node} (h : n.Alike m) (name : String) :
    Rearranged Alike (n.memberNamed name) (m.memberNamed name) := by
  obtain ⟨l, hvalue⟩ := h
  cases hvalue.reordered with
  | object _ => exact found_alike (l.member name) (hvalue.lookup name)
  | _ => exact .nil

theorem elementAt_alike (l : Location) (v w : Json) {items others : List Json}
    (h : List.Forall₂ Json.Alike items others) (i : Nat) :
    Rearranged Alike (elementAt ⟨l, v⟩ items i) (elementAt ⟨l, w⟩ others i) :=
  found_alike (l.index i) (getElem?_of_forall₂ h i)

theorem indexed_alike {n m : Node} (h : n.Alike m) (index : Int) :
    Rearranged Alike (n.indexed index) (m.indexed index) := by
  obtain ⟨l, hvalue⟩ := h
  cases hvalue.reordered with
  | array _ =>
    have hitems := hvalue.items
    simp only [indexed, ← hitems.length_eq]
    split
    · exact elementAt_alike l _ _ hitems _
    · exact .nil
  | _ => exact .nil

theorem sliced_alike {n m : Node} (h : n.Alike m) (start stop step : Option Int) :
    Rearranged Alike (n.sliced start stop step) (m.sliced start stop step) := by
  obtain ⟨l, hvalue⟩ := h
  cases hvalue.reordered with
  | array _ =>
    have hitems := hvalue.items
    simp only [sliced, ← hitems.length_eq]
    refine (Rearranged.refl (R := Eq) (fun _ => rfl) _).flatMap ?_
    rintro i _ rfl
    exact elementAt_alike l _ _ hitems i
  | _ => exact .nil

theorem walk_alike {n m : Node} (h : n.Alike m) : Rearranged Alike n.walk m.walk := by
  induction n using childInduction generalizing m with
  | h n ih =>
    rw [walk_eq, walk_eq]
    have hwalks : Rearranged (fun n m => Rearranged Alike n.walk m.walk) n.children m.children :=
      (children_alike h).mono fun child hchild _ _ halike => ih child hchild halike
    exact .cons h (hwalks.flatMap fun _ _ => id)

end Node

theorem keeps_alike (condition : Expr) {v w : ExprValue} (h : v.Alike w) :
    keeps .strict condition v = keeps .strict condition w := by
  cases h <;> rfl

theorem kept_alike (condition : Expr) {n m : Node} (h : n.Alike m)
    {x y : Except EvalError ExprValue} (hxy : Parallel ExprValue.Alike x y) :
    Parallel (Rearranged Node.Alike) (kept .strict condition n x) (kept .strict condition m y) := by
  refine hxy.bind fun v w hvw => (Parallel.of_eq (keeps_alike condition hvw)).bind ?_
  rintro b _ rfl
  cases b with
  | true => exact .ok (.cons h .nil)
  | false => exact .ok .nil

/-- The expression itself asks nothing about the order of members: a query that is marked as
singular is singular, and a function that is called does not show the order. -/
def Expr.OrderBlind : Expr → Prop
  | .singular p => p.isSingular = true
  | .call name _ => name ∈ BuiltIn.orderBlind
  | _ => True

/-- Documents that are alike, and an environment with the built-in functions under their names. -/
structure AlikeRuns (root root' : Json) (environment : Environment) (engine : IRegexp.Engine) :
    Prop where
  roots : root.Alike root'
  builtIn : ∀ name ∈ BuiltIn.orderBlind,
    environment.findFunction name = (Environment.builtIns engine).findFunction name

section
variable {root root' : Json} {environment : Environment} {engine : IRegexp.Engine}

mutual
theorem Segment.apply_alike (runs : AlikeRuns root root' environment engine) (s : Segment)
    (hs : s.Everywhere Expr.OrderBlind) {n m : Node} (h : n.Alike m) :
    Parallel (Rearranged Node.Alike) (s.apply ⟨root, environment, .strict⟩ n)
      (s.apply ⟨root', environment, .strict⟩ m) := by
  match s with
  | .children ss => exact applySelectors_alike runs ss hs h
  | .descendants ss =>
    exact Parallel.collect (Node.walk_alike h) fun _ _ hvisited =>
      applySelectors_alike runs ss hs hvisited

theorem applySelectors_alike (runs : AlikeRuns root root' environment engine) (ss : List Selector)
    (hss : SelectorsEverywhere Expr.OrderBlind ss) {n m : Node} (h : n.Alike m) :
    Parallel (Rearranged Node.Alike) (applySelectors ⟨root, environment, .strict⟩ ss n)
      (applySelectors ⟨root', environment, .strict⟩ ss m) := by
  match ss with
  | [] => exact .ok .nil
  | s :: rest =>
    exact (Selector.apply_alike runs s hss.1 h).bind fun _ _ hselected =>
      (applySelectors_alike runs rest hss.2 h).bind fun _ _ hmore => .ok (hselected.append hmore)

theorem Selector.apply_alike (runs : AlikeRuns root root' environment engine) (s : Selector)
    (hs : s.Everywhere Expr.OrderBlind) {n m : Node} (h : n.Alike m) :
    Parallel (Rearranged Node.Alike) (s.apply ⟨root, environment, .strict⟩ n)
      (s.apply ⟨root', environment, .strict⟩ m) := by
  match s with
  | .wildcard => exact .ok (Node.children_alike h)
  | .member name => exact .ok (Node.memberNamed_alike h name)
  | .index i => exact .ok (Node.indexed_alike h i)
  | .slice start stop step => exact .ok (Node.sliced_alike h start stop step)
  | .filter e =>
    exact Parallel.collect (Node.children_alike h) fun _ _ hchild =>
      kept_alike e hchild (Expr.evaluate_alike runs e hs hchild.value .logical)

theorem applySegments_alike (runs : AlikeRuns root root' environment engine) (ss : List Segment)
    (hss : SegmentsEverywhere Expr.OrderBlind ss) {ns ms : List Node}
    (h : Rearranged Node.Alike ns ms) :
    Parallel (Rearranged Node.Alike) (applySegments ⟨root, environment, .strict⟩ ss ns)
      (applySegments ⟨root', environment, .strict⟩ ss ms) := by
  match ss with
  | [] => exact .ok h
  | s :: rest =>
    exact (Parallel.collect h fun _ _ hnode => Segment.apply_alike runs s hss.1 hnode).bind
      fun _ _ hselected => applySegments_alike runs rest hss.2 hselected

theorem Path.select_alike (runs : AlikeRuns root root' environment engine) (p : Path)
    (hp : p.Everywhere Expr.OrderBlind) {n m : Node} (h : n.Alike m) :
    Parallel (Rearranged Node.Alike) (p.select ⟨root, environment, .strict⟩ n)
      (p.select ⟨root', environment, .strict⟩ m) := by
  match p with
  | ⟨.root, ss⟩ => exact applySegments_alike runs ss hp (.cons (.root runs.roots) .nil)
  | ⟨.current, ss⟩ => exact applySegments_alike runs ss hp (.cons h .nil)

theorem Expr.evaluate_alike (runs : AlikeRuns root root' environment engine) (e : Expr)
    (he : e.Everywhere Expr.OrderBlind) {v w : Json} (h : v.Alike w) (expected : ExprType) :
    Parallel ExprValue.Alike (e.evaluate ⟨root, environment, .strict⟩ v expected)
      (e.evaluate ⟨root', environment, .strict⟩ w expected) := by
  match e with
  | .null | .bool _ | .integer _ | .float _ | .string _ | .variable _ => exact .refl .refl _
  | .query p =>
    refine (Path.select_alike runs p he.2 (.root h)).bind fun ns ms hnodes => ?_
    exact Coercion.ofNodes_alike expected p (Node.values_same hnodes) nofun
  | .singular p =>
    have hselect := (Path.select_alike runs p he.2 (.root h)).and_left
      fun _ hns => Path.select_singular he.1 hns
    refine hselect.bind fun ns ms hnodes => ?_
    have hlength : (ns.map Node.value).length ≤ 1 := by simpa using hnodes.2
    exact Coercion.ofNodes_alike expected p (Node.values_same hnodes.1) fun _ => hlength
  | .call name args =>
    obtain ⟨f, hf, hblind⟩ := BuiltIn.builtIns_orderBlind engine he.1
    rw [Expr.evaluate, Expr.evaluate]
    dsimp only
    rw [runs.builtIn name he.1, hf]
    dsimp only
    split
    · exact .error _ _
    refine (evaluateArguments_alike runs args he.2 h name 1 f.params).bind fun vs ws hvs => ?_
    refine (hblind root root' v w vs ws hvs).bind fun result result' hresult => ?_
    rw [hresult.type_eq]
    split
    · exact .error _ _
    · exact Coercion.ofResult_alike expected name hresult
  | .not e =>
    refine (Expr.evaluate_alike runs e he.2 h .logical).bind fun _ _ hvalue => ?_
    rw [Coercion.toTruth_alike .notOperand hvalue]
    exact .refl .refl _
  | .negate e =>
    refine (Expr.evaluate_alike runs e he.2 h .json).bind fun _ _ hvalue => ?_
    refine (Coercion.toJson_alike .negateOperand hvalue).bind fun _ _ hoperand => ?_
    rw [negated_same hoperand]
    exact .refl .refl _
  | .binary op left right =>
    rw [Expr.evaluate, Expr.evaluate]
    split
    · split
      · exact .error _ _
      refine (Expr.evaluate_alike runs left he.2.1 h expected).bind fun _ _ hl => ?_
      refine (Parallel.of_eq (Coercion.operandTruth_alike expected (.operands op) hl)).bind ?_
      rintro a _ rfl
      -- equal truth values decide in both runs or in neither
      split
      · exact .ok (.refl _)
      refine (Expr.evaluate_alike runs right he.2.2 h expected).bind fun _ _ hr => ?_
      rw [Coercion.operandTruth_alike expected (.operands op) hr]
      exact .refl .refl _
    · refine (Expr.evaluate_alike runs left he.2.1 h .json).bind fun _ _ hl => ?_
      refine (Coercion.toJson_alike (.operands op) hl).bind fun a a' ha => ?_
      refine (Expr.evaluate_alike runs right he.2.2 h .json).bind fun _ _ hr => ?_
      refine (Coercion.toJson_alike (.operands op) hr).bind fun b b' hb => ?_
      rw [compare_same op ha hb, calculate_same op ha hb]
      exact .refl .refl _

theorem evaluateArguments_alike (runs : AlikeRuns root root' environment engine) (args : List Expr)
    (hargs : ArgumentsEverywhere Expr.OrderBlind args) {v w : Json} (h : v.Alike w)
    (function : String) (position : Nat) (types : List ExprType) :
    Parallel (List.Forall₂ ExprValue.Alike)
      (evaluateArguments ⟨root, environment, .strict⟩ function position args types v)
      (evaluateArguments ⟨root', environment, .strict⟩ function position args types w) := by
  match args, types with
  | [], _ => exact .ok .nil
  | _ :: _, [] => exact .ok .nil
  | e :: rest, t :: types =>
    refine (Expr.evaluate_alike runs e hargs.1 h t).bind fun _ _ hvalue => ?_
    refine (Coercion.toParam_alike t (.argument position function) hvalue).bind fun _ _ hfirst => ?_
    refine (evaluateArguments_alike runs rest hargs.2 h function (position + 1) types).bind
      fun _ _ hrest => ?_
    exact .ok (.cons hfirst hrest)
end

end

/-- Strict evaluation fails on both of two documents that differ in the order of members, or it
selects the same locations. -/
theorem Path.evaluate_reordered {document document' : Json} (h : document.Reordered document')
    (distinct : document.Distinct) (distinct' : document'.Distinct) {environment : Environment}
    {engine : IRegexp.Engine} (builtIn : ∀ name ∈ BuiltIn.orderBlind,
      environment.findFunction name = (Environment.builtIns engine).findFunction name)
    {p : Path} (hp : p.Everywhere Expr.OrderBlind) :
    ((∃ e, p.evaluate document environment .strict = .error e) ↔
      ∃ e, p.evaluate document' environment .strict = .error e) ∧
    ∀ ns ns', p.evaluate document environment .strict = .ok ns →
      p.evaluate document' environment .strict = .ok ns' →
        (ns.map Node.location).Perm (ns'.map Node.location) := by
  have hdocument : document.Alike document' := ⟨h, distinct, distinct'⟩
  have hruns : Parallel (Rearranged Node.Alike) (p.evaluate document environment .strict)
      (p.evaluate document' environment .strict) :=
    Path.select_alike ⟨hdocument, builtIn⟩ p hp (.root hdocument)
  refine ⟨hruns.error_iff, fun ns ns' hns hns' => ?_⟩
  have hlocations := (hruns.of_ok hns hns').map (S := Eq) fun _ _ hnode => hnode.location
  exact Multiset.coe_eq_coe.mp (Multiset.rel_eq.mp hlocations)

theorem Path.evaluate_reordered_objects :
    let point := Json.object [("x", .integer 1), ("y", .integer 2)]
    let turned := Json.object [("y", .integer 2), ("x", .integer 1)]
    let document := Json.object [("a", point), ("b", turned), ("c", .null)]
    let document' := Json.object [("b", point), ("a", turned), ("c", .null)]
    let p : Path := ⟨.root, [.children [.filter (.binary .and
      (.binary .equal (.singular ⟨.current, []⟩) (.singular ⟨.root, [.children [.member "a"]]⟩))
      (.binary .equal (.call "length" [.singular ⟨.current, []⟩]) (.integer 2)))]]⟩
    let a : Node := ⟨Location.root.member "a", point⟩
    let b : Node := ⟨Location.root.member "b", turned⟩
    let a' : Node := ⟨Location.root.member "a", turned⟩
    let b' : Node := ⟨Location.root.member "b", point⟩
    document.Reordered document' ∧
      p.evaluate document .standard .strict = .ok [a, b] ∧
      p.evaluate document' .standard .strict = .ok [b', a'] ∧
      ([a, b].map Node.location).Perm ([b', a'].map Node.location) := by
  intro point turned document document' p a b a' b'
  have hx : Json.Namesakes Json.Reordered ("x", .integer 1) ("x", .integer 1) := .mk (.number _)
  have hy : Json.Namesakes Json.Reordered ("y", .integer 2) ("y", .integer 2) := .mk (.number _)
  have hpoint : point.Reordered turned :=
    .object ((Rearranged.cons hx (.cons hy .nil)).perm (.swap _ _ _))
  have hturned : turned.Reordered point :=
    .object ((Rearranged.cons hy (.cons hx .nil)).perm (.swap _ _ _))
  have hc : Json.Namesakes Json.Reordered ("c", .null) ("c", .null) := .mk .null
  have h : document.Reordered document' :=
    .object ((Rearranged.cons (.mk hpoint) (.cons (.mk hturned) (.cons hc .nil))).perm
      (.swap _ _ _))
  have distinct : document.Distinct := by
    simp [document, point, turned, Json.Distinct, Json.DistinctMembers, Json.integer]
  have distinct' : document'.Distinct := by
    simp [document', point, turned, Json.Distinct, Json.DistinctMembers, Json.integer]
  have hp : p.Everywhere Expr.OrderBlind := by
    simp [p, Path.Everywhere, SegmentsEverywhere, Segment.Everywhere, SelectorsEverywhere,
      Selector.Everywhere, Expr.Everywhere, ArgumentsEverywhere, Expr.OrderBlind, Path.isSingular,
      Segment.isSingular, BuiltIn.orderBlind]
  have hns : p.evaluate document .standard .strict = .ok [a, b] := by rfl
  have hns' : p.evaluate document' .standard .strict = .ok [b', a'] := by rfl
  exact ⟨h, hns, hns', (Path.evaluate_reordered h distinct distinct' (fun _ _ => rfl) hp).2 _ _
    hns hns'⟩

end JsonPath
