import JsonPath.Standard
import JsonPath.Proofs.Selection

set_option autoImplicit false

/-!
# Selected nodes are in place

A node is in place in a document when its location leads to its value there. With distinct member
names the children of such a node are in place too, and so is whatever a query selects. The queries
inside filters run on nodes that are not in place, but select none of the result.
-/
namespace JsonPath

namespace Json

theorem distinct_of_mem_items {items : List Json} (h : DistinctItems items) :
    ∀ v ∈ items, v.Distinct := by
  induction items with
  | nil =>
    intro v hv
    cases hv
  | cons v rest ih => exact List.forall_mem_cons.mpr ⟨h.1, ih h.2⟩

theorem distinct_of_mem_members {ms : List (String × Json)} (h : DistinctMembers ms) :
    ∀ m ∈ ms, m.2.Distinct := by
  induction ms with
  | nil =>
    intro m hm
    cases hm
  | cons m rest ih => exact List.forall_mem_cons.mpr ⟨h.1, ih h.2⟩

theorem distinctItems_of_forall {items : List Json} (h : ∀ v ∈ items, v.Distinct) :
    DistinctItems items := by
  induction items with
  | nil => trivial
  | cons v rest ih =>
    rw [List.forall_mem_cons] at h
    exact ⟨h.1, ih h.2⟩

theorem distinctMembers_of_forall {ms : List (String × Json)} (h : ∀ m ∈ ms, m.2.Distinct) :
    DistinctMembers ms := by
  induction ms with
  | nil => trivial
  | cons m rest ih =>
    rw [List.forall_mem_cons] at h
    exact ⟨h.1, ih h.2⟩

end Json

theorem lookup_of_mem {ms : List (String × Json)} (h : (ms.map Prod.fst).Nodup) {name : String}
    {v : Json} (hm : (name, v) ∈ ms) : ms.lookup name = some v := by
  obtain ⟨before, after, rfl⟩ := List.append_of_mem hm
  rw [List.map_append, List.nodup_append] at h
  refine List.lookup_eq_some_iff.mpr ⟨before, after, rfl, ?_⟩
  intro entry hentry
  have hne : entry.1 ≠ name :=
    h.2.2 entry.1 (List.mem_map_of_mem hentry) name (by simp)
  exact bne_iff_ne.mpr hne.symm

namespace Step

theorem follow_distinct {step : Step} {v w : Json} (hv : v.Distinct)
    (h : step.follow v = some w) : w.Distinct := by
  match step, v with
  | .member name, .object ms =>
    obtain ⟨before, after, rfl, -⟩ := List.lookup_eq_some_iff.mp h
    exact Json.distinct_of_mem_members hv.2 (name, w) (by simp)
  | .index i, .array items =>
    exact Json.distinct_of_mem_items hv w (List.mem_of_getElem? h)

end Step

namespace Location

theorem resolve_child (l : Location) (step : Step) (document : Json) :
    (l.child step).resolve document = (l.resolve document).bind step.follow := by
  rw [resolve, steps_child, List.foldlM_append]
  simp only [List.foldlM_cons, List.foldlM_nil, bind_pure]
  rfl

theorem resolve_distinct {document v : Json} (distinct : document.Distinct) {l : Location}
    (h : l.resolve document = some v) : v.Distinct := by
  obtain ⟨newestFirst⟩ := l
  induction newestFirst generalizing v with
  | nil =>
    cases h
    exact distinct
  | cons step rest ih =>
    change (child ⟨rest⟩ step).resolve document = some v at h
    rw [resolve_child, Option.bind_eq_some_iff] at h
    obtain ⟨w, hw, hv⟩ := h
    exact Step.follow_distinct (ih hw) hv

end Location

namespace Node

/-- The location of the node leads to its value. -/
def InPlace (document : Json) (n : Node) : Prop := n.location.resolve document = some n.value

theorem inPlace_root (document : Json) : (root document).InPlace document := rfl

theorem follow_of_mem_children {n m : Node} (distinct : n.value.Distinct) (hm : m ∈ n.children) :
    ∃ step : Step, m.location = n.location.child step ∧ step.follow n.value = some m.value := by
  rcases mem_children.mp hm with ⟨items, i, v, hn, hv, rfl⟩ | ⟨ms, name, v, hn, hentry, rfl⟩
  · rw [hn]
    exact ⟨.index i, rfl, hv⟩
  · rw [hn] at distinct ⊢
    exact ⟨.member name, rfl, lookup_of_mem distinct.1 hentry⟩

theorem InPlace.child {document : Json} (distinct : document.Distinct) {n : Node}
    (hn : n.InPlace document) : ∀ m ∈ n.children, m.InPlace document := by
  intro m hm
  have hvalue := Location.resolve_distinct distinct hn
  obtain ⟨step, hlocation, hfollow⟩ := follow_of_mem_children hvalue hm
  rw [InPlace, hlocation, Location.resolve_child, hn]
  exact hfollow

end Node

/-- Everything selected is where it says it is, from any node in place and from the root. -/
theorem Path.selected_inPlace (document : Json) (distinct : document.Distinct)
    (environment : Environment) (mode : Mode) (p : Path) :
    (∀ (n : Node) (ns : List Node), n.location.resolve document = some n.value →
      p.select ⟨document, environment, mode⟩ n = .ok ns →
        ∀ m ∈ ns, m.location.resolve document = some m.value) ∧
    ∀ ns : List Node, p.evaluate document environment mode = .ok ns →
      ∀ m ∈ ns, m.location.resolve document = some m.value := by
  have hstep : ∀ n : Node, n.InPlace document → ∀ m ∈ n.children, m.InPlace document :=
    fun n hn => hn.child distinct
  have hroot := Node.inPlace_root document
  constructor
  · intro n ns hn h
    exact Path.select_preserves hstep hroot hn h
  · intro ns h
    exact Path.select_preserves hstep hroot hroot h

theorem Path.selected_inPlace_members :
    let a := Location.root.member "a"
    let b := Location.root.member "b"
    let document := Json.object [("a", .array [.integer 1, .integer 2]), ("b", .array [.integer 3])]
    let ns : List Node :=
      [⟨a.index 1, .integer 2⟩, ⟨a.index 0, .integer 1⟩, ⟨b.index 0, .integer 3⟩]
    (∀ m ∈ ns, m.location.resolve document = some m.value) ∧
      ∀ m ∈ [Node.mk (b.index 0) (.integer 3)], m.location.resolve document = some m.value := by
  intro a b document ns
  have distinct : document.Distinct := by simp [document, Json.Distinct, Json.DistinctMembers,
    Json.DistinctItems, Json.integer]
  have h := Path.selected_inPlace document distinct .standard .strict
  have hlast := (h ⟨.root, [.children [.wildcard], .children [.index (-1),
    .filter (.binary .equal (.singular ⟨.current, []⟩) (.integer 1))]]⟩).2
  have hfirst := (h ⟨.current, [.children [.index 0]]⟩).1 ⟨b, .array [.integer 3]⟩
  exact ⟨hlast ns (by rfl), hfirst _ (by rfl) (by rfl)⟩

end JsonPath
