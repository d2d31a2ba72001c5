import JsonPath.Proofs.Places
import JsonPath.Proofs.Simulations

set_option autoImplicit false

/-!
# Patterns that demand more

An assertion in front of a text is one more element of its first alternative, the oldest one. All
that is read behind it is read as before, and the pattern in the end demands more than without it.
-/
namespace JsonPath.Pattern
open Reader

/-- The second element demands more than the first, and either both can be repeated or none. -/
structure Element.Narrowed (e e' : Element) : Prop where
  refines : Refines e'.pattern e.pattern
  repeatable : e'.repeatable = e.repeatable

theorem Element.Narrowed.refl (e : Element) : e.Narrowed e := ⟨.refl _, rfl⟩

/-- Each element of the second is one of the first, or demands more. The second may have more
elements, which take no characters and are older than all others. -/
structure Branches.Narrowed (b b' : Branches) : Prop where
  finished : List.Forall₂ (fun e e' => Refines e'.pattern e.pattern) b.finished b'.finished
  elements : ∃ newer older, b'.elements = newer ++ older ∧
    List.Forall₂ Element.Narrowed b.elements newer ∧ ∀ e ∈ older, Refines e.pattern .empty

theorem pattern_joined_sequenceOf (es : List Element) :
    (Element.joined sequenceOf es).pattern = sequenceOf (es.map Element.pattern) := by
  rcases es with _ | ⟨e, _ | ⟨d, es⟩⟩ <;> rfl

theorem pattern_joined_eitherOf (es : List Element) :
    (Element.joined eitherOf es).pattern = eitherOf (es.map Element.pattern) := by
  rcases es with _ | ⟨e, _ | ⟨d, es⟩⟩ <;> rfl

theorem sequenceOf_append_refines {ps : List Pattern} (hps : ∀ p ∈ ps, Refines p .empty)
    (qs : List Pattern) : Refines (sequenceOf (ps ++ qs)) (sequenceOf qs) := by
  induction ps with
  | nil => exact .refl _
  | cons p ps ih =>
    rw [List.forall_mem_cons] at hps
    exact (sequenceOf_cons_refines hps.1 _).trans (ih hps.2)

theorem close_refines {b b' : Branches} (h : List.Forall₂ (fun e e' => Refines e'.pattern e.pattern)
    (b.current :: b.finished) (b'.current :: b'.finished)) :
    Refines b'.close.pattern b.close.pattern := by
  rw [Branches.close, Branches.close, pattern_joined_eitherOf, pattern_joined_eitherOf]
  refine .eitherOf ?_
  rw [List.forall₂_map_left_iff, List.forall₂_map_right_iff, List.forall₂_reverse_iff]
  exact h.flip

namespace Branches.Narrowed

theorem fresh : Branches.fresh.Narrowed .fresh := ⟨.nil, [], [], rfl, .nil, nofun⟩

variable {b b' : Branches} (h : b.Narrowed b')
include h

theorem add {e e' : Element} (he : e.Narrowed e') : (b.add e).Narrowed (b'.add e') := by
  obtain ⟨hfinished, newer, older, helements, hnewer, holder⟩ := h
  exact ⟨hfinished, e' :: newer, older, congrArg (e' :: ·) helements, .cons he hnewer, holder⟩

theorem current : Refines b'.current.pattern b.current.pattern := by
  obtain ⟨-, newer, older, helements, hnewer, holder⟩ := h
  have hempty : ∀ p ∈ older.reverse.map Element.pattern, Refines p .empty := by simpa using holder
  have hrefines : List.Forall₂ Refines (newer.reverse.map Element.pattern)
      (b.elements.reverse.map Element.pattern) := by
    rw [List.forall₂_map_left_iff, List.forall₂_map_right_iff, List.forall₂_reverse_iff]
    exact hnewer.flip.imp fun _ _ he => he.refines
  rw [Branches.current, Branches.current, pattern_joined_sequenceOf, pattern_joined_sequenceOf,
    helements, List.reverse_append, List.map_append]
  exact (sequenceOf_append_refines hempty _).trans (.sequenceOf hrefines)

theorem alternatives : List.Forall₂ (fun e e' => Refines e'.pattern e.pattern)
    (b.current :: b.finished) (b'.current :: b'.finished) :=
  .cons h.current h.finished

end Branches.Narrowed

structure GroupState.Narrowed (st st' : GroupState) : Prop where
  flags : st'.flags = st.flags
  names : st'.names = st.names
  branches : st.branches.Narrowed st'.branches
  outer : List.Forall₂ (fun frame frame' => frame.1.Narrowed frame'.1 ∧ frame'.2 = frame.2)
    st.outer st'.outer

theorem repeatLast_narrowed {st st' : GroupState} (h : st.Narrowed st') (least : Nat)
    (most : Option Nat) :
    Simulates GroupState.Narrowed (st.repeatLast least most) (st'.repeatLast least most) := by
  obtain ⟨flags, ⟨finished, elements⟩, outer, names⟩ := st
  obtain ⟨flags', ⟨finished', elements'⟩, outer', names'⟩ := st'
  obtain ⟨hflags, hnames, ⟨hfinished, newer, older, rfl, hnewer, holder⟩, houter⟩ := h
  cases hnewer with
  | nil => exact .invalid _
  | @cons e e' elements newer he hrest =>
    have hrepeated : Element.Narrowed (e.around (.repeated e.pattern least most))
        (e'.around (.repeated e'.pattern least most)) := ⟨he.refines.repeated least most, rfl⟩
    simp only [GroupState.repeatLast, List.cons_append, he.repeatable]
    exact .ite (.pure ⟨hflags, hnames,
      ⟨hfinished, _ :: newer, older, rfl, .cons hrepeated hrest, holder⟩, houter⟩) (.invalid _)

theorem narrowed_simulation : Simulation GroupState.Narrowed where
  flags _ _ h := h.flags
  names _ _ h := h.names
  add _ _ h e := { h with branches := h.branches.add (.refl e) }
  enter _ _ h _ := ⟨rfl, h.names, .fresh, .cons ⟨h.branches, h.flags⟩ h.outer⟩
  setFlags _ _ h _ := { h with flags := rfl }
  setNames _ _ h _ := { h with names := rfl }
  nextAlternative _ _ h :=
    { h with branches := ⟨h.branches.alternatives, [], [], rfl, .nil, nofun⟩ }
  repeatLast _ _ h := repeatLast_narrowed h

theorem leave_narrowed {st st' : GroupState} (h : st.Narrowed st') :
    Simulates GroupState.Narrowed st.leave st'.leave := by
  obtain ⟨flags, branches, outer, names⟩ := st
  obtain ⟨flags', branches', outer', names'⟩ := st'
  obtain ⟨-, hnames, hbranches, houter⟩ := h
  cases houter with
  | nil => exact .invalid _
  | cons hframe hrest =>
    exact .pure ⟨hframe.2, hnames, hframe.1.add ⟨close_refines hbranches.alternatives, rfl⟩, hrest⟩

/-- What is read in one of two such states is read in the other one. -/
theorem reads_narrowed {st st' : GroupState} {next : GroupState × List Char} {text : List Char}
    (hreads : Relation.ReflTransGen Reads (st, text) next) (h : st.Narrowed st') :
    ∃ last, Relation.ReflTransGen Reads (st', text) (last, next.2) ∧ next.1.Narrowed last := by
  induction hreads with
  | refl => exact ⟨st', .refl, h⟩
  | tail _ hstep ih =>
    obtain ⟨between, hbetween, hrelated⟩ := ih
    obtain ⟨last, hlast, hnarrowed⟩ := hstep.simulated narrowed_simulation hrelated
      fun _ => leave_narrowed hrelated
    exact ⟨last, hbetween.tail hlast, hnarrowed⟩

theorem initial_narrowed (a : Assertion) :
    GroupState.initial.Narrowed (GroupState.initial.add (.plain (.assertion a))) := by
  have holder : ∀ e ∈ [Element.plain (.assertion a)], Refines e.pattern .empty := by
    simpa [Element.plain] using assertion_refines a
  exact ⟨rfl, rfl, ⟨.nil, [], _, rfl, .nil, holder⟩, .nil⟩

end JsonPath.Pattern
