import Mathlib.Data.List.Forall2
import JsonPath.Standard
import JsonPath.Proofs.Agreement
import JsonPath.Proofs.Descent

set_option autoImplicit false

/-!
# Moved nodes

What a path selects from a node is found by the same steps wherever the node is, since filters look
at values and not at locations. A path that never goes back to the root of the document does not
depend on the rest of the document either.
-/
namespace JsonPath

namespace Location

/-- The location that the steps of `m` lead to from `l`. -/
def below (l m : Location) : Location := m.steps.foldl child l

theorem below_child (l m : Location) (step : Step) :
    l.below (m.child step) = (l.below m).child step := by
  rw [below, steps_child, List.foldl_append]
  rfl

end Location

namespace Node

variable (l : Location) (n : Node)

/-- The node with its steps taken from `l` on. -/
def under : Node := ⟨l.below n.location, n.value⟩

theorem under_child (m : Location) (step : Step) (v : Json) :
    under l ⟨m.child step, v⟩ = ⟨(l.below m).child step, v⟩ := by
  rw [under, Location.below_child]

theorem elements_under (m : Location) (i : Nat) (items : List Json) :
    elements (l.below m) i items = (elements m i items).map (under l) := by
  induction items generalizing i with
  | nil => rfl
  | cons v rest ih =>
    rw [elements, elements, List.map_cons, ih, Location.index, Location.index, under_child]

theorem members_under (m : Location) (ms : List (String × Json)) :
    members (l.below m) ms = (members m ms).map (under l) := by
  simp only [members, List.map_map, Function.comp_def, Location.member, under_child]

theorem children_under : (n.under l).children = n.children.map (under l) := by
  obtain ⟨m, v⟩ := n
  cases v with
  | array items => exact elements_under l m 0 items
  | object ms => exact members_under l m ms
  | _ => rfl

theorem walk_under : (n.under l).walk = n.walk.map (under l) := by
  induction n using childInduction with
  | h n ih =>
    rw [walk_eq, walk_eq, children_under, List.map_cons, List.map_flatMap, List.flatMap_map,
      List.flatMap_congr ih]

theorem memberNamed_under (name : String) :
    (n.under l).memberNamed name = (n.memberNamed name).map (under l) := by
  obtain ⟨m, v⟩ := n
  cases v with
  | object ms =>
    simp only [memberNamed, under]
    split
    · simp only [List.map_singleton, Location.member, under_child]
    · rfl
  | _ => rfl

theorem elementAt_under (items : List Json) (i : Nat) :
    (n.under l).elementAt items i = (n.elementAt items i).map (under l) := by
  simp only [elementAt, under]
  split
  · simp only [List.map_singleton, Location.index, under_child]
  · rfl

theorem indexed_under (index : Int) :
    (n.under l).indexed index = (n.indexed index).map (under l) := by
  obtain ⟨m, v⟩ := n
  cases v with
  | array items =>
    simp only [indexed, under]
    split
    · exact elementAt_under l ⟨m, .array items⟩ items _
    · rfl
  | _ => rfl

theorem sliced_under (start stop step : Option Int) :
    (n.under l).sliced start stop step = (n.sliced start stop step).map (under l) := by
  obtain ⟨m, v⟩ := n
  cases v with
  | array items =>
    simp only [sliced, under, List.map_flatMap]
    exact List.flatMap_congr fun i _ => elementAt_under l ⟨m, .array items⟩ items i
  | _ => rfl

end Node

section
variable (ctx : Context) (l : Location)

theorem collect_under {f : Node → Except EvalError (List Node)}
    (hf : ∀ n, f (n.under l) = List.map (Node.under l) <$> f n) (ns : List Node) :
    collect f (ns.map (Node.under l)) = List.map (Node.under l) <$> collect f ns := by
  simp only [collect_map, hf, collect_map_results]

theorem kept_under (condition : Expr) (candidate : Node) (result : Except EvalError ExprValue) :
    kept ctx.mode condition (candidate.under l) result =
      List.map (Node.under l) <$> kept ctx.mode condition candidate result := by
  simp only [kept, map_eq_pure_bind, bind_assoc]
  refine bind_congr fun v => bind_congr fun keep => ?_
  cases keep <;> rfl

theorem Selector.apply_under (s : Selector) (n : Node) :
    s.apply ctx (n.under l) = List.map (Node.under l) <$> s.apply ctx n := by
  cases s with
  | wildcard => exact congrArg Except.ok (n.children_under l)
  | member name => exact congrArg Except.ok (n.memberNamed_under l name)
  | index i => exact congrArg Except.ok (n.indexed_under l i)
  | slice start stop step => exact congrArg Except.ok (n.sliced_under l start stop step)
  | filter e =>
    rw [Selector.apply, Selector.apply, Node.children_under]
    exact collect_under l (fun child => kept_under ctx l e child _) n.children

theorem applySelectors_under (ss : List Selector) (n : Node) :
    applySelectors ctx ss (n.under l) = List.map (Node.under l) <$> applySelectors ctx ss n := by
  induction ss with
  | nil => rfl
  | cons s rest ih =>
    rw [applySelectors, applySelectors, Selector.apply_under, ih]
    simp only [map_eq_pure_bind, bind_assoc, pure_bind, List.map_append]

theorem Segment.apply_under (s : Segment) (n : Node) :
    s.apply ctx (n.under l) = List.map (Node.under l) <$> s.apply ctx n := by
  cases s with
  | children ss => exact applySelectors_under ctx l ss n
  | descendants ss =>
    rw [Segment.apply, Segment.apply, Node.walk_under]
    exact collect_under l (applySelectors_under ctx l ss) n.walk

theorem applySegments_under (ss : List Segment) (ns : List Node) :
    applySegments ctx ss (ns.map (Node.under l)) =
      List.map (Node.under l) <$> applySegments ctx ss ns := by
  induction ss generalizing ns with
  | nil => rfl
  | cons s rest ih =>
    rw [applySegments, applySegments, collect_under l (Segment.apply_under ctx l s)]
    simp only [map_eq_pure_bind, bind_assoc, pure_bind, ih]

end

/-- The answers of the function do not depend on the root of the document. -/
def Function.IgnoresRoot (f : Function) : Prop :=
  ∀ (root root' current : Json) (args : List ExprValue),
    f.apply root current args = f.apply root' current args

def Environment.IgnoresRoot (environment : Environment) : Prop :=
  ∀ (name : String) (f : Function), environment.findFunction name = some f → f.IgnoresRoot

theorem Environment.builtIns_ignoresRoot (engine : IRegexp.Engine) :
    (Environment.builtIns engine).IgnoresRoot :=
  fun _ _ hf root root' current args => builtIns_apply hf root root' current current args

/-- The expression itself is not a query from the root of the document. -/
def Expr.Relative : Expr → Prop
  | .query p | .singular p => p.isAbsolute = false
  | _ => True

theorem Expr.Relative.agreeAt {environment : Environment} (henv : environment.IgnoresRoot)
    (root root' : Json) (e : Expr) (h : e.Relative) :
    AgreeAt root root' environment environment e := by
  match e with
  | .query p | .singular p =>
    intro hstart
    rw [Expr.Relative, Path.isAbsolute, decide_eq_false_iff_not] at h
    exact absurd hstart h
  | .call name _ =>
    refine Function.Agree.of_same fun f hf => ⟨rfl, rfl, fun current args _ => ?_⟩
    exact henv name f hf root root' current args
  | .variable _ => exact rfl
  | .null | .bool _ | .integer _ | .float _ | .string _ | .not _ | .negate _ | .binary _ _ _ =>
    trivial

theorem Path.select_below {environment : Environment} (henv : environment.IgnoresRoot) (mode : Mode)
    {p : Path} (hstart : p.start = .current) (hp : p.Everywhere Expr.Relative) (v : Json)
    (l : Location) (root root' : Json) :
    p.select ⟨root, environment, mode⟩ ⟨l, v⟩ =
      List.map (Node.under l) <$> p.select ⟨root', environment, mode⟩ (Node.root v) := by
  have hagree := hp.mono fun e => Expr.Relative.agreeAt henv root root' e
  rw [← Path.select_agree p hagree (fun h => by rw [hstart] at h; cases h)]
  obtain ⟨start, ss⟩ := p
  cases hstart
  -- the node at `l` is the root node of its value, moved there
  exact applySegments_under _ l ss [Node.root v]

/-- A path that does not go back to the root selects the same from a value wherever it stands: it
fails with the same error, or selects the same values in the same order, by the same steps. -/
theorem Path.select_relocated (environment : Environment) (henv : environment.IgnoresRoot)
    (mode : Mode) (p : Path) (hstart : p.start = .current) (hp : p.Everywhere Expr.Relative)
    (v : Json) (l l' : Location) (root root' : Json) :
    (∀ e, p.select ⟨root, environment, mode⟩ ⟨l, v⟩ = .error e ↔
      p.select ⟨root', environment, mode⟩ ⟨l', v⟩ = .error e) ∧
    ∀ ns ns', p.select ⟨root, environment, mode⟩ ⟨l, v⟩ = .ok ns →
      p.select ⟨root', environment, mode⟩ ⟨l', v⟩ = .ok ns' →
        List.Forall₂ (fun m m' => m.value = m'.value ∧ ∃ steps : List Step,
          m.location = steps.foldl Location.child l ∧
            m'.location = steps.foldl Location.child l') ns ns' := by
  rw [Path.select_below henv mode hstart hp v l root .null,
    Path.select_below henv mode hstart hp v l' root' .null]
  cases p.select ⟨.null, environment, mode⟩ (Node.root v) with
  | error e => exact ⟨fun e' => Iff.rfl, nofun⟩
  | ok found =>
    refine ⟨fun e => ⟨nofun, nofun⟩, ?_⟩
    rintro _ _ ⟨⟩ ⟨⟩
    rw [List.forall₂_map_left_iff, List.forall₂_map_right_iff]
    exact List.forall₂_same.mpr fun m _ => ⟨rfl, m.location.steps, rfl, rfl⟩

theorem Path.select_relocated_descendants :
    let filtered (e : Expr) : Path := ⟨.current, [.descendants [.filter e]]⟩
    let p := filtered (.binary .greater
      (.call "count" [.query ⟨.current, [.children [.wildcard]]⟩]) (.integer 1))
    let q := filtered (.variable "x")
    let pair := Json.array [.integer 1, .integer 2]
    let v := Json.array [pair, .array [.integer 3]]
    let l := (Location.root.member "x").index 3
    let here : Context := ⟨v, .standard, .strict⟩
    let there : Context := ⟨.null, .standard, .strict⟩
    let found : List Node := [⟨Location.root.index 0, pair⟩]
    let found' : List Node := [⟨l.index 0, pair⟩]
    (p.Everywhere Expr.Relative ∧ q.Everywhere Expr.Relative) ∧
      p.select here ⟨.root, v⟩ = .ok found ∧ p.select there ⟨l, v⟩ = .ok found' ∧
      List.Forall₂ (fun m m' => m.value = m'.value ∧ ∃ steps : List Step,
        m.location = steps.foldl Location.child .root ∧
          m'.location = steps.foldl Location.child l) found found' ∧
      q.select there ⟨l, v⟩ = .error (.unknownVariable "x") := by
  intro filtered p q pair v l here there found found'
  have hp : p.Everywhere Expr.Relative := by
    simp [p, filtered, Path.Everywhere, SegmentsEverywhere, Segment.Everywhere,
      SelectorsEverywhere, Selector.Everywhere, Expr.Everywhere, ArgumentsEverywhere,
      Expr.Relative, Path.isAbsolute]
  have hq : q.Everywhere Expr.Relative := by
    simp [q, filtered, Path.Everywhere, SegmentsEverywhere, Segment.Everywhere,
      SelectorsEverywhere, Selector.Everywhere, Expr.Everywhere, Expr.Relative]
  have henv : Environment.standard.IgnoresRoot := Environment.builtIns_ignoresRoot _
  have h := Path.select_relocated .standard henv .strict p rfl hp v .root l v .null
  have herror := Path.select_relocated .standard henv .strict q rfl hq v .root l v .null
  have hhere : p.select here ⟨.root, v⟩ = .ok found := by with_unfolding_all rfl
  have hthere : p.select there ⟨l, v⟩ = .ok found' := by with_unfolding_all rfl
  exact ⟨⟨hp, hq⟩, hhere, hthere, h.2 found found' hhere hthere,
    (herror.1 _).mp (by with_unfolding_all rfl)⟩

end JsonPath
