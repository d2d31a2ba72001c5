import JsonPath.Standard
import JsonPath.Proofs.Everything
import JsonPath.Proofs.SelectionOrder

set_option autoImplicit false

/-!
# Document order

A document orders its places: where the steps to two of them first differ, the one with the earlier
child comes first. The children of a node are in this order, and what is below two nodes is in the
order of the nodes. A path of single selectors without descendants and without backward slices
therefore selects its nodes in document order.
-/
namespace JsonPath

/-- Where the child to which a step leads stands among the children of a value. -/
def Step.place? : Step → Json → Option Nat
  | .member name, .object ms => (ms.map Prod.fst).idxOf? name
  | .index i, .array items => if i < items.length then some i else none
  | _, _ => none

/-- From one value, the first steps go to an earlier place than the second ones. -/
inductive Earlier : Json → List Step → List Step → Prop
  | here {v : Json} {s t : Step} {i j : Nat} (hs : s.place? v = some i) (ht : t.place? v = some j)
    (hlt : i < j) (rest rest' : List Step) : Earlier v (s :: rest) (t :: rest')
  | deeper {v w : Json} {s : Step} {rest rest' : List Step} (hs : s.follow v = some w)
    (h : Earlier w rest rest') : Earlier v (s :: rest) (s :: rest')

namespace Earlier

theorem irrefl (v : Json) (steps : List Step) : ¬Earlier v steps steps := by
  induction steps generalizing v with
  | nil => nofun
  | cons s rest ih =>
    intro h
    cases h with
    | here hs ht hlt =>
      rw [hs] at ht
      cases ht
      exact Nat.lt_irrefl _ hlt
    | deeper _ h => exact ih _ h

theorem trans {v : Json} {a b c : List Step} (hab : Earlier v a b) (hbc : Earlier v b c) :
    Earlier v a c := by
  induction hab generalizing c with
  | here hs ht hlt =>
    cases hbc with
    | here ht' hu hlt' =>
      rw [ht] at ht'
      cases ht'
      exact .here hs hu (hlt.trans hlt') _ _
    | deeper _ _ => exact .here hs ht hlt _ _
  | deeper hs h ih =>
    cases hbc with
    | here ht hu hlt => exact .here ht hu hlt _ _
    | deeper ht h' =>
      rw [hs] at ht
      cases ht
      exact .deeper hs (ih h')

theorem append {v : Json} {a b : List Step} (h : Earlier v a b) (c d : List Step) :
    Earlier v (a ++ c) (b ++ d) := by
  induction h with
  | here hs ht hlt => exact .here hs ht hlt _ _
  | deeper hs _ ih => exact .deeper hs ih

theorem under {v w : Json} {steps : List Step} {a b : List Step}
    (hsteps : steps.foldlM (fun value (step : Step) => step.follow value) v = some w)
    (h : Earlier w a b) : Earlier v (steps ++ a) (steps ++ b) := by
  induction steps generalizing v with
  | nil =>
    cases hsteps
    exact h
  | cons s rest ih =>
    rw [List.foldlM_cons] at hsteps
    obtain ⟨u, hu, hrest⟩ := Option.bind_eq_some_iff.mp hsteps
    exact .deeper hu (ih hrest)

end Earlier

/-- The order of places in a document. A place and another one inside it have no order. -/
def Location.Before (document : Json) (l m : Location) : Prop :=
  Earlier document l.steps m.steps

instance (document : Json) : IsStrictOrder Location (Location.Before document) where
  irrefl l := Earlier.irrefl document l.steps
  trans _ _ _ := Earlier.trans

theorem idxOf?_of_getElem? {names : List String} (distinct : names.Nodup) {i : Nat} {name : String}
    (h : names[i]? = some name) : names.idxOf? name = some i := by
  obtain ⟨hi, rfl⟩ := List.getElem?_eq_some_iff.mp h
  refine List.idxOf?_eq_some_iff.mpr ⟨hi, rfl, fun j hj heq => ?_⟩
  exact absurd (distinct.getElem_inj_iff.mp heq) (Nat.ne_of_lt hj)

namespace Node

def Before (document : Json) (n m : Node) : Prop := n.location.Before document m.location

theorem Before.children {document : Json} {n m : Node} (h : n.Before document m) :
    ∀ c ∈ n.children, ∀ d ∈ m.children, c.Before document d := by
  refine forall_children (P := Location.Before document) fun s t => ?_
  rw [Location.Before, Location.steps_child, Location.steps_child]
  exact Earlier.append h [s] [t]

theorem getElem?_elements (l : Location) (k : Nat) (items : List Json) (i : Nat) :
    (elements l k items)[i]? = items[i]?.map fun v => ⟨l.index (k + i), v⟩ := by
  induction items generalizing k i with
  | nil => rfl
  | cons v rest ih =>
    cases i with
    | zero => rfl
    | succ i =>
      rw [elements, List.getElem?_cons_succ, List.getElem?_cons_succ, ih, Nat.add_right_comm,
        Nat.add_assoc]

theorem exists_place {n child : Node} (distinct : n.value.Distinct) {i : Nat}
    (h : n.children[i]? = some child) :
    ∃ step : Step, child.location = n.location.child step ∧ step.place? n.value = some i := by
  cases hn : n.value with
  | array items =>
    rw [children_array hn, getElem?_elements, Option.map_eq_some_iff] at h
    obtain ⟨v, hv, rfl⟩ := h
    refine ⟨.index (0 + i), rfl, ?_⟩
    rw [Nat.zero_add]
    exact if_pos (List.getElem?_eq_some_iff.mp hv).1
  | object ms =>
    rw [hn] at distinct
    rw [children_object hn, members, List.getElem?_map, Option.map_eq_some_iff] at h
    obtain ⟨m, hm, rfl⟩ := h
    have hname : (ms.map Prod.fst)[i]? = some m.1 := by rw [List.getElem?_map, hm, Option.map_some]
    exact ⟨.member m.1, rfl, idxOf?_of_getElem? distinct.1 hname⟩
  | _ =>
    rw [children, hn] at h
    cases h

theorem children_before {document : Json} (distinct : document.Distinct) {n : Node}
    (hn : n.InPlace document) : n.children.Pairwise (Before document) := by
  have hvalue := Location.resolve_distinct distinct hn
  rw [List.pairwise_iff_getElem]
  intro i j hi hj hlt
  obtain ⟨s, hs, hplace⟩ := exists_place hvalue (List.getElem?_eq_getElem hi)
  obtain ⟨t, ht, hplace'⟩ := exists_place hvalue (List.getElem?_eq_getElem hj)
  rw [Before, Location.Before, hs, ht, Location.steps_child, Location.steps_child]
  exact .under hn (.here hplace hplace' hlt [] [])

end Node

/-- Without descendants and backward slices, a path of single selectors selects nodes in document
order. -/
theorem Path.evaluate_documentOrder (document : Json) (distinct : document.Distinct)
    (environment : Environment) (mode : Mode) (p : Path)
    (hforward : ∀ s ∈ p.segments, ∃ selector : Selector,
      s = .children [selector] ∧ selector.isBackward = false)
    (ns : List Node) (h : p.evaluate document environment mode = .ok ns) :
    (ns.map Node.location).Pairwise (Location.Before document) := by
  rw [p.evaluate_eq] at h
  refine List.pairwise_map.mpr (applySegments_pairwise (P := Node.InPlace document)
    (R := Node.Before document) (fun _ => Node.children_before distinct)
    (fun _ _ => Node.Before.children) (fun _ hn => hn.child distinct) (fun s hs => ?_)
    (List.forall_mem_singleton.mpr (Node.inPlace_root document)) (List.pairwise_singleton _ _) h)
  obtain ⟨selector, rfl, hselector⟩ := hforward s hs
  exact ⟨selector, rfl, fun hbackward => absurd hbackward (Bool.eq_false_iff.mp hselector)⟩

theorem Path.evaluate_documentOrder_sliced :
    let b := Location.root.member "b"
    let a := Location.root.member "a"
    let document := Json.object
      [("b", .array [.array [.integer 1, .null, .bool true], .array []]),
        ("a", .array [.array [.integer 3]])]
    let p : Path := ⟨.root, [.children [.wildcard],
      .children [.filter (.singular ⟨.current, [.children [.index 0]]⟩)],
      .children [.slice none none (some 2)]]⟩
    let ns : List Node := [⟨(b.index 0).index 0, .integer 1⟩, ⟨(b.index 0).index 2, .bool true⟩,
      ⟨(a.index 0).index 0, .integer 3⟩]
    document.Distinct ∧ p.evaluate document .standard .lenient = .ok ns ∧
      (ns.map Node.location).Pairwise (Location.Before document) := by
  intro b a document p ns
  have distinct : document.Distinct := by simp [document, Json.Distinct, Json.DistinctMembers,
    Json.DistinctItems, Json.integer]
  have hns : p.evaluate document .standard .lenient = .ok ns := by with_unfolding_all rfl
  exact ⟨distinct, hns, Path.evaluate_documentOrder document distinct .standard .lenient p
    (by simp [p, Selector.isBackward]) ns hns⟩

end JsonPath
