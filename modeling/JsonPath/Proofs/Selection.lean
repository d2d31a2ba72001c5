import JsonPath.Proofs.Collection

set_option autoImplicit false

/-!
# What selection preserves

A query goes from a node to its children only, however often. What holds of the node where it
starts and of the children of every node of which it holds, therefore holds of every selected node.
The queries inside filters decide which children stay and add none.
-/
namespace JsonPath

namespace Node

theorem mem_elements {l : Location} {items : List Json} {m : Node} {i : Nat} :
    m ∈ elements l i items ↔ ∃ k v, items[k]? = some v ∧ m = ⟨l.index (i + k), v⟩ := by
  induction items generalizing i with
  | nil => simp [elements]
  | cons v rest ih =>
    rw [elements, List.mem_cons, ih]
    constructor
    · rintro (rfl | ⟨k, w, hw, rfl⟩)
      · exact ⟨0, v, rfl, rfl⟩
      · refine ⟨k + 1, w, hw, ?_⟩
        rw [Nat.add_right_comm, Nat.add_assoc]
    · rintro ⟨k, w, hw, rfl⟩
      cases k with
      | zero =>
        cases hw
        exact .inl rfl
      | succ k =>
        refine .inr ⟨k, w, hw, ?_⟩
        rw [Nat.add_right_comm, Nat.add_assoc]

theorem children_array {n : Node} {items : List Json} (hn : n.value = .array items) :
    n.children = elements n.location 0 items := by
  rw [children, hn]

theorem children_object {n : Node} {ms : List (String × Json)} (hn : n.value = .object ms) :
    n.children = members n.location ms := by
  rw [children, hn]

theorem mem_children {n m : Node} :
    m ∈ n.children ↔
      (∃ items i v, n.value = .array items ∧ items[i]? = some v ∧ m = ⟨n.location.index i, v⟩) ∨
        ∃ ms name v, n.value = .object ms ∧ (name, v) ∈ ms ∧ m = ⟨n.location.member name, v⟩ := by
  cases hn : n.value with
  | array items => simp [children_array hn, mem_elements]
  | object ms => simp [children_object hn, members, eq_comm]
  | _ => simp [children, hn]

theorem elementAt_subset {n : Node} {items : List Json} (hn : n.value = .array items) (i : Nat) :
    n.elementAt items i ⊆ n.children := by
  intro m hm
  rw [elementAt] at hm
  split at hm
  · next v hv => exact mem_children.mpr (.inl ⟨items, i, v, hn, hv, List.mem_singleton.mp hm⟩)
  · cases hm

theorem memberNamed_subset (n : Node) (name : String) : n.memberNamed name ⊆ n.children := by
  intro m hm
  rw [memberNamed] at hm
  split at hm
  · next ms hn =>
    split at hm
    · next v hv =>
      obtain ⟨before, after, rfl, -⟩ := List.lookup_eq_some_iff.mp hv
      exact mem_children.mpr (.inr ⟨_, name, v, hn, by simp, List.mem_singleton.mp hm⟩)
    · cases hm
  · cases hm

theorem indexed_subset (n : Node) (index : Int) : n.indexed index ⊆ n.children := by
  intro m hm
  rw [indexed] at hm
  split at hm
  · next items hn =>
    split at hm
    · next i _ => exact elementAt_subset hn i hm
    · cases hm
  · cases hm

theorem sliced_subset (n : Node) (start stop step : Option Int) :
    n.sliced start stop step ⊆ n.children := by
  intro m hm
  rw [sliced] at hm
  split at hm
  · next items hn =>
    obtain ⟨i, -, hm⟩ := List.mem_flatMap.mp hm
    exact elementAt_subset hn i hm
  · cases hm

end Node

theorem mem_kept {mode : Mode} {condition : Expr} {candidate m : Node}
    {result : Except EvalError ExprValue} {ns : List Node}
    (h : kept mode condition candidate result = .ok ns) (hm : m ∈ ns) : m = candidate := by
  obtain ⟨v, -, h⟩ := bind_eq_ok.mp h
  obtain ⟨keep, -, h⟩ := bind_eq_ok.mp h
  split at h
  · cases h
    exact List.mem_singleton.mp hm
  · cases h
    cases hm

theorem Selector.apply_subset {ctx : Context} {s : Selector} {n : Node} {ns : List Node}
    (h : s.apply ctx n = .ok ns) : ns ⊆ n.children := by
  match s with
  | .wildcard =>
    cases h
    exact List.Subset.refl _
  | .member name =>
    cases h
    exact n.memberNamed_subset name
  | .index i =>
    cases h
    exact n.indexed_subset i
  | .slice start stop step =>
    cases h
    exact n.sliced_subset start stop step
  | .filter e =>
    intro m hm
    rw [Selector.apply] at h
    obtain ⟨child, hchild, cs, hcs, hm⟩ := mem_collect h hm
    rwa [mem_kept hcs hm]

theorem applySelectors_subset {ctx : Context} {ss : List Selector} {n : Node} {ns : List Node}
    (h : applySelectors ctx ss n = .ok ns) : ns ⊆ n.children := by
  induction ss generalizing ns with
  | nil =>
    cases h
    exact List.nil_subset _
  | cons s rest ih =>
    rw [applySelectors] at h
    obtain ⟨selected, hselected, h⟩ := bind_eq_ok.mp h
    obtain ⟨more, hmore, h⟩ := bind_eq_ok.mp h
    cases h
    exact List.append_subset.mpr ⟨Selector.apply_subset hselected, ih hmore⟩

section
variable {P : Node → Prop} (hstep : ∀ n, P n → ∀ m ∈ n.children, P m)
include hstep

theorem Node.visit_preserves {stack : List Node} (h : ∀ n ∈ stack, P n) :
    ∀ n ∈ visit stack, P n := by
  fun_induction visit stack with
  | case1 => exact h
  | case2 n rest ih =>
    rw [List.forall_mem_cons] at h
    have hnext : ∀ m ∈ n.children ++ rest, P m := by
      intro m hm
      rcases List.mem_append.mp hm with hm | hm
      · exact hstep n h.1 m hm
      · exact h.2 m hm
    exact List.forall_mem_cons.mpr ⟨h.1, ih hnext⟩

theorem Node.walk_preserves {n : Node} (h : P n) : ∀ m ∈ n.walk, P m :=
  Node.visit_preserves hstep (by simpa using h)

theorem Segment.apply_preserves {ctx : Context} {s : Segment} {n : Node} {ns : List Node}
    (hn : P n) (h : s.apply ctx n = .ok ns) : ∀ m ∈ ns, P m := by
  intro m hm
  match s with
  | .children ss => exact hstep n hn m (applySelectors_subset h hm)
  | .descendants ss =>
    rw [Segment.apply] at h
    obtain ⟨visited, hvisited, cs, hcs, hm⟩ := mem_collect h hm
    exact hstep visited (Node.walk_preserves hstep hn visited hvisited) m
      (applySelectors_subset hcs hm)

theorem collect_segment_preserves {ctx : Context} {s : Segment} {ns ms : List Node}
    (hns : ∀ n ∈ ns, P n) (h : collect (fun n => s.apply ctx n) ns = .ok ms) : ∀ m ∈ ms, P m := by
  intro m hm
  obtain ⟨n, hn, cs, hcs, hm⟩ := mem_collect h hm
  exact Segment.apply_preserves hstep (hns n hn) hcs m hm

theorem applySegments_preserves {ctx : Context} {ss : List Segment} {ns ms : List Node}
    (hns : ∀ n ∈ ns, P n) (h : applySegments ctx ss ns = .ok ms) : ∀ m ∈ ms, P m := by
  induction ss generalizing ns with
  | nil =>
    cases h
    exact hns
  | cons s rest ih =>
    rw [applySegments] at h
    obtain ⟨selected, hselected, h⟩ := bind_eq_ok.mp h
    exact ih (collect_segment_preserves hstep hns hselected) h

theorem Path.select_preserves {ctx : Context} (hroot : P (Node.root ctx.root)) {p : Path}
    {n : Node} {ns : List Node} (hn : P n) (h : p.select ctx n = .ok ns) : ∀ m ∈ ns, P m := by
  match p with
  | ⟨.root, ss⟩ => exact applySegments_preserves hstep (by simpa using hroot) h
  | ⟨.current, ss⟩ => exact applySegments_preserves hstep (by simpa using hn) h

end
end JsonPath
