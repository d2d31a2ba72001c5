import Mathlib.Data.List.Nodup
import JsonPath.Grammar
import JsonPath.Proofs.Descent
import JsonPath.Proofs.InPlace

set_option autoImplicit false

/-!
# Everything in a document

A walk from the root comes to every place in the document, and to none of them twice. Each place but
the root is that of a child of one of the visited nodes, so that `$..*` selects all of them once.
-/
namespace JsonPath

namespace Location

/-- The second location is the first one or below it. -/
def Within (l m : Location) : Prop := l.newestFirst <:+ m.newestFirst

theorem Within.refl (l : Location) : l.Within l := List.suffix_refl _

theorem Within.child {l m : Location} (h : l.Within m) (step : Step) : l.Within (m.child step) :=
  h.trans (List.suffix_cons _ _)

theorem Within.depth_le {l m : Location} (h : l.Within m) : l.depth ≤ m.depth := h.length_le

theorem Within.eq_of_depth {l l' m : Location} (h : l.Within m) (h' : l'.Within m)
    (hdepth : l.depth = l'.depth) : l = l' := by
  have hsuffix : l.newestFirst <:+ l'.newestFirst :=
    List.suffix_of_suffix_length_le h h' (Nat.le_of_eq hdepth)
  exact congrArg Location.mk (hsuffix.eq_of_length hdepth)

theorem depth_child (l : Location) (step : Step) : (l.child step).depth = l.depth + 1 := rfl

end Location

namespace Node

theorem location_of_mem_children {n m : Node} (h : m ∈ n.children) :
    ∃ step : Step, m.location = n.location.child step := by
  rcases mem_children.mp h with ⟨_, i, _, -, -, rfl⟩ | ⟨_, name, _, -, -, rfl⟩
  · exact ⟨.index i, rfl⟩
  · exact ⟨.member name, rfl⟩

theorem forall_children {P : Location → Location → Prop} {n m : Node}
    (h : ∀ s t, P (n.location.child s) (m.location.child t)) :
    ∀ c ∈ n.children, ∀ d ∈ m.children, P c.location d.location := by
  intro c hc d hd
  obtain ⟨s, hs⟩ := location_of_mem_children hc
  obtain ⟨t, ht⟩ := location_of_mem_children hd
  rw [hs, ht]
  exact h s t

theorem mem_children_of_follow {l : Location} {v w : Json} {step : Step}
    (h : step.follow v = some w) : (⟨l.child step, w⟩ : Node) ∈ children ⟨l, v⟩ := by
  match step, v with
  | .index i, .array items => exact mem_children.mpr (.inl ⟨items, i, w, rfl, h, rfl⟩)
  | .member name, .object ms =>
    obtain ⟨before, after, rfl, -⟩ := List.lookup_eq_some_iff.mp h
    exact mem_children.mpr (.inr ⟨_, name, w, rfl, by simp, rfl⟩)

theorem locations_elements (l : Location) (i : Nat) (items : List Json) :
    (elements l i items).map location = (List.range' i items.length).map l.index := by
  induction items generalizing i with
  | nil => rfl
  | cons v rest ih => rw [elements, List.map_cons, ih, List.length_cons, List.range'_succ,
      List.map_cons]

theorem children_nodup {n : Node} (distinct : n.value.Distinct) :
    (n.children.map location).Nodup := by
  cases hn : n.value with
  | array items =>
    rw [children_array hn, locations_elements]
    refine List.Nodup.map ?_ List.nodup_range'
    intro i j h
    cases h
    rfl
  | object ms =>
    rw [hn] at distinct
    have hnames : (members n.location ms).map location =
        (ms.map Prod.fst).map n.location.member := by
      simp only [members, List.map_map, Function.comp_def]
    rw [children_object hn, hnames]
    refine List.Nodup.map ?_ distinct.1
    intro name name' h
    cases h
    rfl
  | _ =>
    rw [children, hn]
    exact List.nodup_nil

theorem child_distinct {n : Node} (distinct : n.value.Distinct) :
    ∀ child ∈ n.children, child.value.Distinct := by
  intro child hchild
  obtain ⟨step, -, hfollow⟩ := follow_of_mem_children distinct hchild
  exact Step.follow_distinct distinct hfollow

theorem flatMap_walk_perm {ns : List Node}
    (h : ∀ n ∈ ns, n.walk.Perm (n :: n.walk.flatMap children)) :
    (ns.flatMap walk).Perm (ns ++ (ns.flatMap walk).flatMap children) := by
  induction ns with
  | nil => exact .nil
  | cons n rest ih =>
    rw [List.forall_mem_cons] at h
    have hwalks := h.1.append (ih h.2)
    rw [List.flatMap_cons, List.flatMap_append, List.cons_append]
    refine hwalks.trans (.cons n ?_)
    exact List.perm_append_comm_assoc _ _ _

/-- Apart from the node itself, a walk visits the children of the nodes that it visits. -/
theorem walk_perm (n : Node) : n.walk.Perm (n :: n.walk.flatMap children) := by
  induction n using childInduction with
  | h n ih =>
    rw [walk_eq, List.flatMap_cons]
    exact .cons n (flatMap_walk_perm ih)

theorem self_mem_walk (n : Node) : n ∈ n.walk := n.walk_perm.mem_iff.mpr List.mem_cons_self

theorem child_mem_walk {n m child : Node} (hm : m ∈ n.walk) (hchild : child ∈ m.children) :
    child ∈ n.walk :=
  n.walk_perm.mem_iff.mpr (List.mem_cons_of_mem n (List.mem_flatMap.mpr ⟨m, hm, hchild⟩))

theorem within_of_mem_children (l : Location) (n : Node) (h : l.Within n.location) :
    ∀ child ∈ n.children, l.Within child.location := by
  intro child hchild
  obtain ⟨step, hstep⟩ := location_of_mem_children hchild
  rw [hstep]
  exact h.child step

theorem within_of_mem_walk {n m : Node} (h : m ∈ n.walk) : n.location.Within m.location :=
  walk_preserves (within_of_mem_children n.location) (.refl _) m h

/-- With distinct member names, a walk comes to no place twice. -/
theorem walk_nodup {n : Node} (distinct : n.value.Distinct) : (n.walk.map location).Nodup := by
  induction n using childInduction with
  | h n ih =>
    have hdepth : ∀ child ∈ n.children, child.location.depth = n.location.depth + 1 := by
      intro child hchild
      obtain ⟨step, hstep⟩ := location_of_mem_children hchild
      rw [hstep, Location.depth_child]
    have hwithin : ∀ (child : Node) (l : Location), l ∈ child.walk.map location →
        child.location.Within l := by
      intro child l hl
      obtain ⟨m, hm, rfl⟩ := List.mem_map.mp hl
      exact within_of_mem_walk hm
    rw [walk_eq, List.map_cons, List.map_flatMap, List.nodup_cons, List.nodup_flatMap]
    refine ⟨?_, fun child hchild => ih child hchild (child_distinct distinct child hchild), ?_⟩
    · -- whatever is below the node is deeper than the node
      intro hself
      obtain ⟨child, hchild, hl⟩ := List.mem_flatMap.mp hself
      have hle := (hwithin child _ hl).depth_le
      rw [hdepth child hchild] at hle
      exact Nat.not_succ_le_self _ hle
    · -- a place below two children would make them the same child
      have hdifferent := List.pairwise_map.mp (children_nodup distinct)
      refine hdifferent.imp_of_mem ?_
      intro child other hchild hother hne l hl hl'
      refine hne ((hwithin child l hl).eq_of_depth (hwithin other l hl') ?_)
      rw [hdepth child hchild, hdepth other hother]

theorem mem_walk_root {document : Json} (distinct : document.Distinct) {m : Node} :
    m ∈ (root document).walk ↔ m.InPlace document := by
  constructor
  · exact walk_preserves (fun n hn => hn.child distinct) (inPlace_root document) m
  · obtain ⟨⟨newestFirst⟩, v⟩ := m
    induction newestFirst generalizing v with
    | nil =>
      intro h
      cases h
      exact self_mem_walk _
    | cons step rest ih =>
      intro h
      rw [InPlace] at h
      change (Location.child ⟨rest⟩ step).resolve document = some v at h
      rw [Location.resolve_child, Option.bind_eq_some_iff] at h
      obtain ⟨w, hw, hv⟩ := h
      exact child_mem_walk (ih w hw) (mem_children_of_follow hv)

end Node

namespace Path

/-- The query `$..*`. -/
def everything : Path := ⟨.root, [.descendants [.wildcard]]⟩

theorem parse_everything (mode : Mode) : Path.parse "$..*" mode = .ok everything := by
  cases mode <;> with_unfolding_all rfl

theorem evaluate_everything (document : Json) (environment : Environment) (mode : Mode) :
    everything.evaluate document environment mode =
      .ok ((Node.root document).walk.flatMap Node.children) := by
  have hwildcard : ∀ n, applySelectors ⟨document, environment, mode⟩ [.wildcard] n =
      .ok n.children := fun n => congrArg Except.ok (List.append_nil n.children)
  rw [evaluate, everything, select, applySegments, collect_singleton, Segment.apply]
  simp only [hwildcard, collect_ok]
  rfl

/-- With distinct member names, `$..*` selects every place but the root that there is in the
document, and none of them twice. -/
theorem everything_complete (document : Json) (distinct : document.Distinct)
    (environment : Environment) (mode : Mode) :
    Path.parse "$..*" mode = .ok everything ∧
      ∃ ns, everything.evaluate document environment mode = .ok ns ∧
        (ns.map Node.location).Nodup ∧
        ∀ l, l ∈ ns.map Node.location ↔ l ≠ .root ∧ ∃ v, l.resolve document = some v := by
  refine ⟨parse_everything mode, _, evaluate_everything document environment mode, ?_⟩
  have hperm := ((Node.root document).walk_perm).map Node.location
  have hnodup := hperm.nodup_iff.mp (Node.walk_nodup distinct)
  rw [List.map_cons, List.nodup_cons] at hnodup
  refine ⟨hnodup.2, fun l => ?_⟩
  have hwalk : l ∈ (Node.root document).walk.map Node.location ↔
      ∃ v, l.resolve document = some v := by
    constructor
    · intro hl
      obtain ⟨m, hm, rfl⟩ := List.mem_map.mp hl
      exact ⟨m.value, (Node.mem_walk_root distinct).mp hm⟩
    · rintro ⟨v, hv⟩
      exact List.mem_map.mpr ⟨⟨l, v⟩, (Node.mem_walk_root distinct).mpr hv, rfl⟩
  rw [← hwalk, hperm.mem_iff, List.map_cons, List.mem_cons]
  constructor
  · intro hl
    refine ⟨?_, .inr hl⟩
    rintro rfl
    exact hnodup.1 hl
  · rintro ⟨hne, hroot | hl⟩
    · exact absurd hroot hne
    · exact hl

theorem everything_complete_nested :
    let document := Json.object
      [("a", .array [.integer 1, .object [("b", .null)]]), ("", .array [])]
    let inner := ((Location.root.member "a").index 1).member "b"
    document.Distinct ∧ ∃ ns, everything.evaluate document .standard .lenient = .ok ns ∧
      (ns.map Node.location).Nodup ∧ inner ∈ ns.map Node.location ∧
        inner.index 0 ∉ ns.map Node.location ∧ Location.root ∉ ns.map Node.location := by
  intro document inner
  have distinct : document.Distinct := by simp [document, Json.Distinct, Json.DistinctMembers,
    Json.DistinctItems, Json.integer]
  obtain ⟨-, ns, hns, hnodup, hmem⟩ := everything_complete document distinct .standard .lenient
  refine ⟨distinct, ns, hns, hnodup, (hmem inner).mpr ⟨by decide, .null, by rfl⟩, ?_, ?_⟩
  · intro h
    obtain ⟨-, v, hv⟩ := (hmem (inner.index 0)).mp h
    cases hv
  · exact fun h => ((hmem .root).mp h).1 rfl

end Path
end JsonPath
