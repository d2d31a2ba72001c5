import JsonPath.Standard
import JsonPath.Proofs.Everything
import JsonPath.Proofs.SelectionOrder

set_option autoImplicit false

/-!
# Nodes that are selected once

As long as a path goes from nodes to their children, one selector at a time, none of its nodes is
inside another, so that nothing in the document is below two of them. One descendant segment may
then select nodes inside others, but each of them once; and after it, children of different nodes
are still different.
-/
namespace JsonPath

namespace Location

/-- Neither location is inside the other one. -/
def Apart (l m : Location) : Prop := ¬l.Within m ∧ ¬m.Within l

theorem Apart.symm {l m : Location} (h : l.Apart m) : m.Apart l := And.symm h

theorem Apart.ne {l m : Location} (h : l.Apart m) : l ≠ m := by
  rintro rfl
  exact h.1 (.refl l)

theorem Apart.ne_of_within {l m l' m' : Location} (h : l.Apart m) (hl : l.Within l')
    (hm : m.Within m') : l' ≠ m' := by
  rintro rfl
  exact (List.suffix_or_suffix_of_suffix hl hm).elim h.1 h.2

theorem child_inj {l m : Location} {s t : Step} (h : l.child s = m.child t) : l = m ∧ s = t := by
  obtain ⟨ls⟩ := l
  obtain ⟨ms⟩ := m
  cases h
  exact ⟨rfl, rfl⟩

theorem Apart.not_within_child {l m : Location} (h : l.Apart m) (s t : Step) :
    ¬(l.child s).Within (m.child t) := by
  intro hwithin
  rcases List.suffix_cons_iff.mp hwithin with heq | hwithin
  · exact h.ne (child_inj (congrArg Location.mk heq)).1
  · exact h.1 ((List.suffix_cons _ _).trans hwithin)

theorem Apart.child {l m : Location} (h : l.Apart m) (s t : Step) :
    (l.child s).Apart (m.child t) :=
  ⟨h.not_within_child s t, h.symm.not_within_child t s⟩

theorem apart_children (l : Location) {s t : Step} (h : s ≠ t) :
    (l.child s).Apart (l.child t) := by
  have hne : l.child s ≠ l.child t := fun heq => h (child_inj heq).2
  exact ⟨fun hst => hne (hst.eq_of_depth (.refl _) rfl),
    fun hts => hne (hts.eq_of_depth (.refl _) rfl).symm⟩

end Location

namespace Node

def Apart (n m : Node) : Prop := n.location.Apart m.location

def Elsewhere (n m : Node) : Prop := n.location ≠ m.location

theorem elsewhere_iff_nodup {ns : List Node} :
    ns.Pairwise Elsewhere ↔ (ns.map location).Nodup := by
  rw [List.Nodup, List.pairwise_map]
  rfl

theorem children_elsewhere {n : Node} (distinct : n.value.Distinct) :
    n.children.Pairwise Elsewhere :=
  elsewhere_iff_nodup.mpr (children_nodup distinct)

theorem children_apart {n : Node} (distinct : n.value.Distinct) : n.children.Pairwise Apart := by
  refine (children_elsewhere distinct).imp_of_mem ?_
  intro c d hc hd hne
  obtain ⟨s, hs⟩ := location_of_mem_children hc
  obtain ⟨t, ht⟩ := location_of_mem_children hd
  rw [Elsewhere, hs, ht] at hne
  rw [Apart, hs, ht]
  exact Location.apart_children n.location fun hst => hne (congrArg _ hst)

theorem Apart.children {n m : Node} (h : n.Apart m) :
    ∀ c ∈ n.children, ∀ d ∈ m.children, c.Apart d :=
  forall_children fun s t => Location.Apart.child h s t

theorem Elsewhere.children {n m : Node} (h : n.Elsewhere m) :
    ∀ c ∈ n.children, ∀ d ∈ m.children, c.Elsewhere d :=
  forall_children (P := (· ≠ ·)) fun _ _ heq => h (Location.child_inj heq).1

end Node

def Segment.isDescendant : Segment → Bool
  | .children _ => false
  | .descendants _ => true

section
variable {ctx : Context} {ns ms : List Node}

theorem collect_descendants_elsewhere {selector : Selector}
    (hdistinct : ∀ n ∈ ns, n.value.Distinct) (hns : ns.Pairwise Node.Apart)
    (h : collect (fun n => (Segment.descendants [selector]).apply ctx n) ns = .ok ms) :
    ms.Pairwise Node.Elsewhere := by
  refine collect_pairwise h hns ?_ ?_
  · intro n hn found hfound
    have hwalk : ∀ k ∈ n.walk, k.value.Distinct :=
      Node.walk_preserves (fun _ => Node.child_distinct) (hdistinct n hn)
    exact collect_selector_pairwise (fun _ => Node.children_elsewhere)
      (fun _ _ => Node.Elsewhere.children) (fun _ _ _ => Ne.symm) hwalk
      (Node.elsewhere_iff_nodup.mpr (Node.walk_nodup (hdistinct n hn))) hfound
  · intro n m hnm found more hfound hmore c hc d hd
    have hc := Segment.apply_preserves (Node.within_of_mem_children _) (.refl _) hfound c hc
    have hd := Segment.apply_preserves (Node.within_of_mem_children _) (.refl _) hmore d hd
    exact hnm.ne_of_within hc hd

/-- Nodes are apart up to the descendant segment, and different from there on. -/
theorem applySegments_elsewhere {ss : List Segment} (hone : ∀ s ∈ ss, s.selectors.length = 1)
    (hdescendant : ss.countP Segment.isDescendant ≤ 1) (hdistinct : ∀ n ∈ ns, n.value.Distinct)
    (hns : ns.Pairwise Node.Apart) (h : applySegments ctx ss ns = .ok ms) :
    ms.Pairwise Node.Elsewhere := by
  induction ss generalizing ns with
  | nil =>
    cases h
    exact hns.imp Location.Apart.ne
  | cons s rest ih =>
    rw [List.forall_mem_cons] at hone
    rw [List.countP_cons] at hdescendant
    rw [applySegments] at h
    obtain ⟨found, hfound, hrest⟩ := bind_eq_ok.mp h
    have hfoundDistinct : ∀ m ∈ found, m.value.Distinct :=
      collect_segment_preserves (fun _ => Node.child_distinct) hdistinct hfound
    obtain ⟨selector, hselector⟩ := List.length_eq_one_iff.mp hone.1
    cases s with
    | children ss =>
      cases hselector
      refine ih hone.2 hdescendant hfoundDistinct ?_ hrest
      exact collect_selector_pairwise (fun _ => Node.children_apart) (fun _ _ => Node.Apart.children)
        (fun _ _ _ => Location.Apart.symm) hdistinct hns hfound
    | descendants ss =>
      cases hselector
      have hnone : rest.countP Segment.isDescendant = 0 := by
        rw [Segment.isDescendant, if_pos rfl] at hdescendant
        omega
      refine applySegments_pairwise (fun _ => Node.children_elsewhere)
        (fun _ _ => Node.Elsewhere.children) (fun _ => Node.child_distinct) (fun s hs => ?_)
        hfoundDistinct (collect_descendants_elsewhere hdistinct hns hfound) hrest
      obtain ⟨selector, hselector⟩ := List.length_eq_one_iff.mp (hone.2 s hs)
      cases s with
      | children ss =>
        cases hselector
        exact ⟨selector, rfl, fun _ _ _ => Ne.symm⟩
      | descendants ss => exact absurd rfl (List.countP_eq_zero.mp hnone _ hs)

end

/-- A path with one selector in each segment and no more than one descendant segment selects no node
twice. -/
theorem Path.evaluate_nodup (document : Json) (distinct : document.Distinct)
    (environment : Environment) (mode : Mode) (p : Path)
    (hone : ∀ s ∈ p.segments, s.selectors.length = 1)
    (hdescendant : p.segments.countP Segment.isDescendant ≤ 1) (ns : List Node)
    (h : p.evaluate document environment mode = .ok ns) : (ns.map Node.location).Nodup := by
  rw [p.evaluate_eq] at h
  have hroot : ∀ n ∈ [Node.root document], n.value.Distinct := List.forall_mem_singleton.mpr distinct
  exact Node.elsewhere_iff_nodup.mp
    (applySegments_elsewhere hone hdescendant hroot (List.pairwise_singleton _ _) h)

theorem Path.evaluate_nodup_backward :
    let document := Json.array [.object [("a", .array [.integer 1, .integer 2, .null])],
      .array [.array [.integer 3, .integer 4]]]
    let p : Path := ⟨.root, [.children [.filter (.query ⟨.current, [.children [.wildcard]]⟩)],
      .descendants [.slice none none (some (-1))]]⟩
    document.Distinct ∧ ∃ ns, p.evaluate document .standard .strict = .ok ns ∧ ns.length = 6 ∧
      (ns.map Node.location).Nodup := by
  intro document p
  have distinct : document.Distinct := by simp [document, Json.Distinct, Json.DistinctMembers,
    Json.DistinctItems, Json.integer]
  have hns : ∃ ns, p.evaluate document .standard .strict = .ok ns ∧ ns.length = 6 :=
    ⟨_, by with_unfolding_all rfl, by with_unfolding_all rfl⟩
  obtain ⟨ns, hns, hlength⟩ := hns
  exact ⟨distinct, ns, hns, hlength,
    Path.evaluate_nodup document distinct .standard .strict p (by simp [p, Segment.selectors])
      (by decide) ns hns⟩

end JsonPath
