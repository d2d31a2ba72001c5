import JsonPath.Standard
import JsonPath.Proofs.Composition

set_option autoImplicit false

/-!
# Singular paths

A singular path goes one step at a time, to the member of a name or to the element at an index. It
never fails: where there is no such member or element, or no object or array at all, it selects
nothing.
-/
namespace JsonPath

theorem position?_eq_some_iff {index : Int} {length k : Nat} :
    position? index length = some k ↔
      (-length ≤ index ∧ index ≤ length - 1) ∧
        (k : Int) = if 0 ≤ index then index else length + index := by
  rw [position?]
  split_ifs <;> simp <;> omega

/-- A segment with a name leads to the member of that name, and one with an index to the element
there. A negative index counts back from the end of the array. -/
inductive Segment.Takes : Segment → Json → Step → Json → Prop
  | member {name : String} {ms : List (String × Json)} {v : Json}
    (h : ms.lookup name = some v) :
    Takes (.children [.member name]) (.object ms) (.member name) v
  | index {i : Int} {items : List Json} {k : Nat} {v : Json}
    (hrange : -items.length ≤ i ∧ i ≤ items.length - 1)
    (hk : (k : Int) = if 0 ≤ i then i else items.length + i) (h : items[k]? = some v) :
    Takes (.children [.index i]) (.array items) (.index k) v

/-- The steps that the segments take one after the other, with the value to which they lead. -/
inductive Route : List Segment → Json → List Step → Json → Prop
  | nil (v : Json) : Route [] v [] v
  | cons {s : Segment} {rest : List Segment} {v w u : Json} {step : Step} {steps : List Step}
    (hstep : s.Takes v step w) (hrest : Route rest w steps u) :
    Route (s :: rest) v (step :: steps) u

theorem exists_route_cons {s : Segment} {rest : List Segment} {n m : Node} :
    (∃ steps, Route (s :: rest) n.value steps m.value ∧
      m.location = steps.foldl Location.child n.location) ↔
    ∃ k : Node, (∃ step, s.Takes n.value step k.value ∧ k.location = n.location.child step) ∧
      ∃ steps, Route rest k.value steps m.value ∧
        m.location = steps.foldl Location.child k.location := by
  constructor
  · rintro ⟨_, hroute, hlocation⟩
    cases hroute with
    | @cons _ _ _ w _ step steps hstep hrest =>
      exact ⟨⟨n.location.child step, w⟩, ⟨step, hstep, rfl⟩, steps, hrest, hlocation⟩
  · rintro ⟨k, ⟨step, hstep, hk⟩, steps, hrest, hlocation⟩
    rw [hk] at hlocation
    exact ⟨step :: steps, .cons hstep hrest, hlocation⟩

namespace Node

theorem mem_memberNamed {n m : Node} {name : String} :
    m ∈ n.memberNamed name ↔ ∃ step, (Segment.children [.member name]).Takes n.value step m.value ∧
      m.location = n.location.child step := by
  obtain ⟨l, v⟩ := n
  obtain ⟨l', w⟩ := m
  constructor
  · intro h
    rw [memberNamed] at h
    split at h
    · next ms hvalue =>
      cases hvalue
      split at h
      · next u hu =>
        cases List.mem_singleton.mp h
        exact ⟨.member name, .member hu, rfl⟩
      · cases h
    · cases h
  · rintro ⟨_, ⟨hw⟩, rfl⟩
    simp [memberNamed, hw, Location.member]

theorem mem_indexed {n m : Node} {i : Int} :
    m ∈ n.indexed i ↔ ∃ step, (Segment.children [.index i]).Takes n.value step m.value ∧
      m.location = n.location.child step := by
  obtain ⟨l, v⟩ := n
  obtain ⟨l', w⟩ := m
  constructor
  · intro h
    rw [indexed] at h
    split at h
    · next items hvalue =>
      cases hvalue
      split at h
      · next k hk =>
        rw [elementAt] at h
        split at h
        · next u hu =>
          cases List.mem_singleton.mp h
          obtain ⟨hrange, hcounted⟩ := position?_eq_some_iff.mp hk
          exact ⟨.index k, .index hrange hcounted hu, rfl⟩
        · cases h
      · cases h
    · cases h
  · rintro ⟨_, htakes, rfl⟩
    cases htakes with
    | index hrange hk hw =>
      simp [indexed, position?_eq_some_iff.mpr ⟨hrange, hk⟩, elementAt, hw, Location.index]

theorem memberNamed_length (n : Node) (name : String) : (n.memberNamed name).length ≤ 1 := by
  rw [memberNamed]
  split
  · split <;> simp
  · simp

theorem indexed_length (n : Node) (index : Int) : (n.indexed index).length ≤ 1 := by
  rw [indexed]
  split
  · split
    · rw [elementAt]
      split <;> simp
    · simp
  · simp

end Node

theorem eq_nil_or_singleton {α : Type} {as : List α} (h : as.length ≤ 1) :
    as = [] ∨ ∃ a, as = [a] := by
  rcases Nat.le_one_iff_eq_zero_or_eq_one.mp h with hzero | hone
  · exact .inl (List.length_eq_zero_iff.mp hzero)
  · exact .inr (List.length_eq_one_iff.mp hone)

/-- No more than one node is selected, and it is the one to which the segment leads. -/
theorem Segment.apply_singular (ctx : Context) {s : Segment} (hs : s.isSingular = true) (n : Node) :
    ∃ ns, s.apply ctx n = .ok ns ∧ ns.length ≤ 1 ∧
      ∀ m, m ∈ ns ↔
        ∃ step, s.Takes n.value step m.value ∧ m.location = n.location.child step := by
  match s, hs with
  | .children [.member name], _ =>
    exact ⟨n.memberNamed name, congrArg Except.ok (List.append_nil _), n.memberNamed_length name,
      fun _ => Node.mem_memberNamed⟩
  | .children [.index i], _ =>
    exact ⟨n.indexed i, congrArg Except.ok (List.append_nil _), n.indexed_length i,
      fun _ => Node.mem_indexed⟩

theorem applySegments_singular (ctx : Context) {ss : List Segment}
    (hss : ss.all Segment.isSingular = true) (n : Node) :
    ∃ ns, applySegments ctx ss [n] = .ok ns ∧ ns.length ≤ 1 ∧
      ∀ m, m ∈ ns ↔ ∃ steps, Route ss n.value steps m.value ∧
        m.location = steps.foldl Location.child n.location := by
  induction ss generalizing n with
  | nil =>
    refine ⟨[n], rfl, Nat.le_refl 1, fun m => ?_⟩
    constructor
    · intro h
      cases List.mem_singleton.mp h
      exact ⟨[], .nil _, rfl⟩
    · rintro ⟨steps, hroute, hlocation⟩
      obtain ⟨l, v⟩ := n
      obtain ⟨l', w⟩ := m
      cases hroute
      cases hlocation
      exact List.mem_singleton_self _
  | cons s rest ih =>
    rw [List.all_cons, Bool.and_eq_true] at hss
    obtain ⟨found, hfound, hlength, hmem⟩ := Segment.apply_singular ctx hss.1 n
    have hrun : applySegments ctx (s :: rest) [n] = applySegments ctx rest found := by
      rw [applySegments, collect_singleton, hfound]
      rfl
    rw [hrun]
    rcases eq_nil_or_singleton hlength with rfl | ⟨k, rfl⟩
    · refine ⟨[], applySegments_empty ctx rest, Nat.zero_le 1, fun m => ?_⟩
      simp only [exists_route_cons, ← hmem, List.not_mem_nil, false_and, exists_false]
    · obtain ⟨ns, hns, hone, hroutes⟩ := ih hss.2 k
      refine ⟨ns, hns, hone, fun m => ?_⟩
      simp only [exists_route_cons, ← hmem, List.mem_singleton, exists_eq_left]
      exact hroutes m

/-- The node where the path starts when it is evaluated at another one. -/
def Path.origin (ctx : Context) (p : Path) (n : Node) : Node :=
  match p.start with
  | .root => Node.root ctx.root
  | .current => n

theorem Path.select_eq (ctx : Context) (p : Path) (n : Node) :
    p.select ctx n = applySegments ctx p.segments [p.origin ctx n] := by
  obtain ⟨start, ss⟩ := p
  cases start <;> rfl

theorem Path.evaluate_eq (document : Json) (environment : Environment) (mode : Mode) (p : Path) :
    p.evaluate document environment mode =
      applySegments ⟨document, environment, mode⟩ p.segments [Node.root document] := by
  rw [evaluate, p.select_eq, origin]
  cases p.start <;> rfl

theorem Path.select_singular {ctx : Context} {p : Path} (hp : p.isSingular = true) {n : Node}
    {ns : List Node} (h : p.select ctx n = .ok ns) : ns.length ≤ 1 := by
  obtain ⟨found, hfound, hone, -⟩ := applySegments_singular ctx hp (p.origin ctx n)
  rw [p.select_eq, hfound] at h
  cases h
  exact hone

/-- A singular path selects one node if each of its segments in turn leads to a value, and otherwise
none. The node is as many steps away from the start as the path has segments. A query that is marked
as singular therefore has a value at every type. -/
theorem Path.select_isSingular (ctx : Context) (p : Path) (hp : p.isSingular = true) :
    (∀ n : Node, ∃ ns, p.select ctx n = .ok ns ∧ ns.length ≤ 1 ∧
      ∀ m, ns = [m] ↔ ∃ steps, Route p.segments (p.origin ctx n).value steps m.value ∧
        m.location = steps.foldl Location.child (p.origin ctx n).location) ∧
    ∀ (current : Json) (expected : ExprType),
      ∃ v, (Expr.singular p).evaluate ctx current expected = .ok v := by
  have hselect (n : Node) := applySegments_singular ctx hp (p.origin ctx n)
  constructor
  · intro n
    obtain ⟨ns, hns, hone, hroutes⟩ := hselect n
    refine ⟨ns, (p.select_eq ctx n).trans hns, hone, fun m => Iff.trans ?_ (hroutes m)⟩
    constructor
    · rintro rfl
      exact List.mem_singleton_self m
    · intro hm
      obtain rfl | ⟨k, rfl⟩ := eq_nil_or_singleton hone
      · cases hm
      · rw [List.mem_singleton.mp hm]
  · intro current expected
    obtain ⟨ns, hns, -, -⟩ := hselect (Node.root current)
    rw [Expr.evaluate, p.select_eq ctx, hns]
    cases expected with
    | json => exact ⟨_, if_neg (by simp)⟩
    | _ => exact ⟨_, rfl⟩

theorem Path.select_isSingular_fromEnd :
    let p : Path := ⟨.current, [.children [.member "a"], .children [.index (-2)]]⟩
    let items := [Json.null, .integer 7, .bool true]
    let l := Location.root.index 4
    let n : Node := ⟨l, .object [("a", .array items)]⟩
    let ctx : Context := ⟨.null, .standard, .strict⟩
    p.isSingular = true ∧
      p.select ctx n = .ok [⟨(l.member "a").index 1, .integer 7⟩] ∧
      ∃ v, (Expr.singular p).evaluate ctx n.value .json = .ok v := by
  intro p items l n ctx
  have hp : p.isSingular = true := rfl
  have h := Path.select_isSingular ctx p hp
  have hroute : Route p.segments n.value [.member "a", .index 1] (.integer 7) :=
    .cons (.member rfl) (.cons (.index (by decide) (by decide) rfl) (.nil _))
  obtain ⟨ns, hns, -, hselected⟩ := h.1 n
  rw [(hselected ⟨(l.member "a").index 1, .integer 7⟩).mpr ⟨_, hroute, rfl⟩] at hns
  exact ⟨hp, hns, h.2 n.value .json⟩

end JsonPath
