import Mathlib.Data.List.Flatten
import Mathlib.Data.List.Sort
import JsonPath.Proofs.Selection
import JsonPath.Proofs.SingularPaths
import JsonPath.Proofs.Slices

set_option autoImplicit false

/-!
# The order of selected children

A selector keeps the order of the children of its node, or turns it round if it is a slice with a
negative step. A relation between the children of each node is therefore one between the nodes that
a segment selects, as long as it is handed down from any two nodes to their children.
-/
namespace JsonPath

theorem slicePositions_min (start stop step : Option Int) (length : Nat) :
    slicePositions start stop step length =
      slicePositions start stop step (min length Word.greatest.toNat) := by
  have hgreatest : 0 < Word.greatest.toNat := by decide
  have hbounded : Slice.bounded (min length Word.greatest.toNat) = Slice.bounded length := by
    simp only [Slice.bounded, Word.greatest]
    omega
  have hzero : min length Word.greatest.toNat = 0 ↔ length = 0 := by omega
  simp only [slicePositions, hbounded, hzero]

theorem slicePositions_selection (start stop step : Option Int) (length : Nat) :
    (slicePositions start stop step length).map Int.ofNat =
      Slice.selection start stop (step.getD 1) (min length Word.greatest.toNat : Nat) := by
  rw [slicePositions_min]
  exact slicePositions_eq start stop step (by rw [Word.greatest]; omega)

theorem lt_of_mem_slicePositions {start stop step : Option Int} {length i : Nat}
    (h : i ∈ slicePositions start stop step length) : i < length := by
  have hmem : (i : Int) ∈ (slicePositions start stop step length).map Int.ofNat :=
    List.mem_map_of_mem h
  rw [slicePositions_selection] at hmem
  have hlt := (Slice.mem_selection hmem).2
  omega

theorem sublist_range {is : List Nat} {length : Nat} (h : is.Pairwise (· < ·))
    (hlt : ∀ i ∈ is, i < length) : is.Sublist (List.range length) := by
  have hnodup : is.Nodup := h.imp Nat.ne_of_lt
  have hsubset : is ⊆ List.range length := fun i hi => List.mem_range.mpr (hlt i hi)
  exact List.sublist_of_subperm_of_pairwise (List.subperm_of_subset hnodup hsubset) h
    List.pairwise_lt_range

theorem slicePositions_forward {start stop step : Option Int} (hstep : 0 ≤ step.getD 1)
    (length : Nat) : (slicePositions start stop step length).Sublist (List.range length) := by
  refine sublist_range ?_ fun i hi => lt_of_mem_slicePositions hi
  have hselection := slicePositions_selection start stop step length
  rcases hstep.lt_or_eq with hpos | hzero
  · have hascending := Slice.selection_ascending start stop
      (min length Word.greatest.toNat : Nat) hpos
    rw [← hselection, List.pairwise_map] at hascending
    exact hascending.imp Int.ofNat_lt.mp
  · rw [← hzero] at hselection
    rw [List.map_eq_nil_iff.mp hselection]
    exact .nil

theorem slicePositions_backward {start stop step : Option Int} (hstep : step.getD 1 < 0)
    (length : Nat) :
    (slicePositions start stop step length).reverse.Sublist (List.range length) := by
  refine sublist_range ?_ fun i hi => lt_of_mem_slicePositions (List.mem_reverse.mp hi)
  have hdescending := Slice.selection_descending start stop
    (min length Word.greatest.toNat : Nat) hstep
  rw [← slicePositions_selection, List.pairwise_map] at hdescending
  exact List.pairwise_reverse.mpr (hdescending.imp Int.ofNat_lt.mp)

namespace Node

theorem elements_append (n : Node) (before items : List Json) :
    elements n.location before.length items =
      (List.range' before.length items.length).flatMap (n.elementAt (before ++ items)) := by
  induction items generalizing before with
  | nil => rfl
  | cons v rest ih =>
    have hfirst : n.elementAt (before ++ v :: rest) before.length =
        [⟨n.location.index before.length, v⟩] := by simp [elementAt]
    have hrest := ih (before ++ [v])
    rw [List.length_append, List.length_singleton, List.append_assoc, List.singleton_append]
      at hrest
    rw [elements, hrest, List.length_cons, List.range'_succ, List.flatMap_cons, hfirst]
    rfl

theorem children_elementAt {n : Node} {items : List Json} (hn : n.value = .array items) :
    n.children = (List.range items.length).flatMap (n.elementAt items) := by
  rw [children_array hn, List.range_eq_range']
  exact n.elements_append [] items

theorem reverse_elementAt (n : Node) (items : List Json) (i : Nat) :
    (n.elementAt items i).reverse = n.elementAt items i := by
  rw [elementAt]
  split <;> rfl

theorem sliced_forward (n : Node) {start stop step : Option Int} (hstep : 0 ≤ step.getD 1) :
    (n.sliced start stop step).Sublist n.children := by
  rw [sliced]
  split
  · next items hn =>
    rw [children_elementAt hn]
    exact (slicePositions_forward hstep _).flatMap _
  · exact List.nil_sublist _

theorem sliced_backward (n : Node) {start stop step : Option Int} (hstep : step.getD 1 < 0) :
    (n.sliced start stop step).reverse.Sublist n.children := by
  rw [sliced]
  split
  · next items hn =>
    have hreverse : List.reverse ∘ n.elementAt items = n.elementAt items :=
      funext (n.reverse_elementAt items)
    rw [children_elementAt hn, List.reverse_flatMap, hreverse]
    exact (slicePositions_backward hstep _).flatMap _
  · exact List.nil_sublist _

end Node

theorem kept_sublist {mode : Mode} {condition : Expr} {candidate : Node}
    {result : Except EvalError ExprValue} {ns : List Node}
    (h : kept mode condition candidate result = .ok ns) : ns.Sublist [candidate] := by
  obtain ⟨v, -, h⟩ := bind_eq_ok.mp h
  obtain ⟨keep, -, h⟩ := bind_eq_ok.mp h
  split at h
  · cases h
    exact List.Sublist.refl _
  · cases h
    exact List.nil_sublist _

/-- A slice with a negative step. -/
def Selector.isBackward : Selector → Bool
  | .slice _ _ step => step.getD 1 < 0
  | _ => false

theorem sublist_of_subset {α : Type} {as bs : List α} (hone : as.length ≤ 1) (h : as ⊆ bs) :
    as.Sublist bs := by
  obtain rfl | ⟨a, rfl⟩ := eq_nil_or_singleton hone
  · exact List.nil_sublist _
  · exact List.singleton_sublist.mpr (h (List.mem_singleton_self a))

section
variable {ctx : Context} {s : Selector} {n : Node} {ns : List Node}

theorem Selector.apply_forward (h : s.apply ctx n = .ok ns) (hs : s.isBackward = false) :
    ns.Sublist n.children := by
  match s with
  | .wildcard =>
    cases h
    exact List.Sublist.refl _
  | .member name =>
    cases h
    exact sublist_of_subset (n.memberNamed_length name) (n.memberNamed_subset name)
  | .index i =>
    cases h
    exact sublist_of_subset (n.indexed_length i) (n.indexed_subset i)
  | .slice start stop step =>
    cases h
    exact n.sliced_forward (not_lt.mp (of_decide_eq_false hs))
  | .filter e =>
    rw [Selector.apply] at h
    exact collect_sublist h fun child found => kept_sublist

theorem Selector.apply_backward (h : s.apply ctx n = .ok ns) (hs : s.isBackward = true) :
    ns.reverse.Sublist n.children := by
  match s with
  | .slice start stop step =>
    cases h
    exact n.sliced_backward (of_decide_eq_true hs)

theorem Selector.apply_pairwise {R : Node → Node → Prop} (h : s.apply ctx n = .ok ns)
    (hs : s.isBackward = true → ∀ a b, R a b → R b a) (hchildren : n.children.Pairwise R) :
    ns.Pairwise R := by
  cases hbackward : s.isBackward with
  | false => exact hchildren.sublist (Selector.apply_forward h hbackward)
  | true =>
    have hreverse := hchildren.sublist (Selector.apply_backward h hbackward)
    exact (List.pairwise_reverse.mp hreverse).imp fun {a b} => hs hbackward b a

end

theorem applySelectors_singleton (ctx : Context) (s : Selector) (n : Node) :
    applySelectors ctx [s] n = s.apply ctx n := by
  rw [applySelectors]
  cases s.apply ctx n with
  | error e => rfl
  | ok found => exact congrArg Except.ok (List.append_nil found)

section
variable {ctx : Context} {P : Node → Prop} {R : Node → Node → Prop}
  (hchildren : ∀ n, P n → n.children.Pairwise R)
  (hbelow : ∀ n m, R n m → ∀ c ∈ n.children, ∀ d ∈ m.children, R c d)
include hchildren hbelow

theorem collect_selector_pairwise {s : Selector} (hs : s.isBackward = true → ∀ a b, R a b → R b a)
    {ns ms : List Node} (hP : ∀ n ∈ ns, P n) (hns : ns.Pairwise R)
    (h : collect (fun n => applySelectors ctx [s] n) ns = .ok ms) : ms.Pairwise R := by
  simp only [applySelectors_singleton] at h
  refine collect_pairwise h hns (fun n hn found hfound => ?_) ?_
  · exact Selector.apply_pairwise hfound hs (hchildren n (hP n hn))
  · intro n m hnm found more hfound hmore c hc d hd
    exact hbelow n m hnm c (Selector.apply_subset hfound hc) d (Selector.apply_subset hmore hd)

theorem applySegments_pairwise (hstep : ∀ n, P n → ∀ m ∈ n.children, P m) {ss : List Segment}
    (hss : ∀ s ∈ ss, ∃ selector : Selector, s = .children [selector] ∧
      (selector.isBackward = true → ∀ a b, R a b → R b a))
    {ns ms : List Node} (hP : ∀ n ∈ ns, P n) (hns : ns.Pairwise R)
    (h : applySegments ctx ss ns = .ok ms) : ms.Pairwise R := by
  induction ss generalizing ns with
  | nil =>
    cases h
    exact hns
  | cons s rest ih =>
    rw [List.forall_mem_cons] at hss
    obtain ⟨⟨selector, rfl, hdirection⟩, hrest⟩ := hss
    rw [applySegments] at h
    obtain ⟨found, hfound, h⟩ := bind_eq_ok.mp h
    exact ih hrest (collect_segment_preserves hstep hP hfound)
      (collect_selector_pairwise hchildren hbelow hdirection hP hns hfound) h

end
end JsonPath
