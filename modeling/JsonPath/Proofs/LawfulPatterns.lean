import JsonPath.Pattern.Engine
import JsonPath.Proofs.EngineLaws
import JsonPath.Proofs.FencedReading
import JsonPath.Proofs.Frames
import JsonPath.Proofs.Narrowing

set_option autoImplicit false

/-!
# The grammar of patterns is lawful

A pattern with a fence behind it is read up to the fence, or it ends in a comment. So a group around
the pattern is closed where it should be, and without the group the parenthesis is an error. What
stands in front of the pattern is read first and only narrows what the pattern matches.
-/
namespace JsonPath.Pattern
open Reader

theorem not_hangsAt_of_reads {st last : GroupState} {text fence : List Char}
    {next : GroupState × List Char} (hfence : Fence fence ∨ fence = [])
    (hstep : Reads (st, text ++ fence) next)
    (hreads : Relation.ReflTransGen Reads next (last, fence)) : ¬ HangsAt st.flags text := by
  intro hangs
  rcases hangs.run_groupStep hfence hstep.2 with hlt | ⟨hlong, hnext⟩
  · exact absurd (reads_suffix hreads).length_le (Nat.not_le_of_lt hlt)
  · rcases hreads.cases_head with rfl | ⟨behind, hbehind, hlast⟩
    · exact Nat.lt_irrefl _ hlong
    · exact absurd (reads_suffix hlast).length_le (Nat.not_le_of_lt (hnext _ _ hbehind.2))

def ReadsToFence (st st' : GroupState) (text : List Char) : Prop :=
  ∀ fence, Fence fence → Relation.ReflTransGen Reads (st, text ++ fence) (st', fence)

/-- The text is read to its end, in a comment that goes on into any fence. -/
structure ReadsIntoComment (st st' : GroupState) (text : List Char) : Prop where
  sign : '#' ∈ text
  line : ∀ ⦃fence⦄, Fence fence → '\n' ∉ fence →
    Relation.ReflTransGen Reads (st, text ++ fence) (st', [])
  beyond : ∀ ⦃fence⦄, Fence fence → ∀ next,
    ¬ Relation.ReflTransGen Reads (st, text ++ fence) (next, fence)

theorem Reads.unique {now next next' : GroupState × List Char} (h : Reads now next)
    (h' : Reads now next') : next = next' := Except.ok.inj (h.2.symm.trans h'.2)

theorem exists_first_step {st last : GroupState} {text fence : List Char} (hne : text ≠ [])
    (h : Relation.ReflTransGen Reads (st, text ++ fence) (last, fence)) :
    ∃ next, Reads (st, text ++ fence) next ∧ Relation.ReflTransGen Reads next (last, fence) := by
  refine h.cases_head.resolve_left fun hstop => hne ?_
  exact List.append_left_eq_self.mp (Prod.mk.inj hstop).2

theorem reads_fence {st st' : GroupState} {text : List Char}
    (h : Relation.ReflTransGen Reads (st, text) (st', [])) :
    ReadsToFence st st' text ∨ ReadsIntoComment st st' text := by
  generalize hnow : (st, text) = now at h
  induction h using Relation.ReflTransGen.head_induction_on generalizing st text with
  | refl =>
    cases hnow
    exact .inl fun fence _ => .refl
  | @head now next hstep hreads ih =>
    subst hnow
    obtain ⟨st₁, rest⟩ := next
    have hne (fence : List Char) : text ++ fence ≠ [] :=
      List.append_ne_nil_of_left_ne_nil hstep.1 fence
    have hhangs : ¬ HangsAt st.flags text :=
      not_hangsAt_of_reads (.inr rfl) (by rwa [List.append_nil]) hreads
    rcases (groupStep_fenced hhangs).ahead hstep.2 with hfence | ⟨rfl, hcomment⟩
    · have hstep' (fence : List Char) (hf : Fence fence) :
          Reads (st, text ++ fence) (st₁, rest ++ fence) := ⟨hne fence, hfence fence hf⟩
      rcases ih rfl with hrest | hrest
      · exact .inl fun fence hf => .head (hstep' fence hf) (hrest fence hf)
      · refine .inr ⟨((groupStep st).rest_suffix hstep.2).subset hrest.sign,
          fun fence hf hline => .head (hstep' fence hf) (hrest.line hf hline),
          fun fence hf last hlast => ?_⟩
        obtain ⟨between, hbetween, hlast⟩ := exists_first_step hstep.1 hlast
        rw [← (hstep' fence hf).unique hbetween] at hlast
        exact hrest.beyond hf last hlast
    · -- the comment begins in this step, which is the last one
      cases eq_of_reads_nil hreads
      refine .inr ⟨hcomment.sign,
        fun fence hf hline => .single ⟨hne fence, hcomment.line hf hline⟩,
        fun fence hf last hlast => ?_⟩
      obtain ⟨between, hbetween, hlast⟩ := exists_first_step hstep.1 hlast
      exact absurd (reads_suffix hlast).length_le
        (Nat.not_le_of_lt (hcomment.beyond hf hbetween.2))

theorem reads_of_fence {st st' : GroupState} {text fence : List Char} (hfence : Fence fence)
    (h : Relation.ReflTransGen Reads (st, text ++ fence) (st', fence)) :
    Relation.ReflTransGen Reads (st, text) (st', []) := by
  generalize hnow : (st, text ++ fence) = now at h
  induction h using Relation.ReflTransGen.head_induction_on generalizing st text with
  | refl =>
    obtain ⟨rfl, htext⟩ := Prod.mk.inj hnow
    rw [List.append_left_eq_self.mp htext]
  | @head now next hstep hreads ih =>
    subst hnow
    obtain ⟨read, hrest⟩ := reads_suffix hreads
    obtain ⟨st₁, rest⟩ := next
    obtain rfl : read ++ fence = rest := hrest
    have hne : text ≠ [] := by
      rintro rfl
      have hlength := strict_groupStep st hstep.2
      simp only [List.nil_append, List.length_append] at hlength
      omega
    have hhangs := not_hangsAt_of_reads (.inl hfence) hstep hreads
    exact .head ⟨hne, (groupStep_fenced hhangs).back hfence hstep.2⟩ (ih rfl)

theorem fence_paren (rest : List Char) : Fence (')' :: rest) := .inl rfl

theorem reads_iff {text : List Char} : engine.Reads text ↔
    ∃ st, st.outer = [] ∧ Relation.ReflTransGen Reads (.initial, text) (st, []) := by
  rw [IRegexp.Engine.Reads, engine, Option.isSome_map, Option.isSome_iff_exists]
  constructor
  · rintro ⟨e, he⟩
    obtain ⟨st, hst, houter, -⟩ := read?_eq_some.mp he
    exact ⟨st, houter, hst⟩
  · rintro ⟨st, houter, hst⟩
    exact ⟨_, read?_eq_some.mpr ⟨st, hst, houter, rfl⟩⟩

theorem not_reads_unopened {text rest : List Char} {st : GroupState} (houter : st.outer = [])
    (h : Relation.ReflTransGen Reads (.initial, text) (st, ')' :: rest)) : ¬ engine.Reads text := by
  intro hreads
  obtain ⟨last, hlast, hrun⟩ := reads_iff.mp hreads
  cases (elements_eq_ok.mpr ⟨rfl, hrun⟩).symm.trans
    ((elements_of_reads h).trans (elements_unopened houter rest))

/-- A text has a closing parenthesis behind it that is its own in no way if and only if it is read
up to any fence. -/
theorem groupable_iff {text : List Char} : engine.Groupable text ↔
    ∃ st, st.outer = [] ∧ ReadsToFence .initial st text := by
  constructor
  · rintro ⟨hreads, hparen⟩
    obtain ⟨st, houter, hst⟩ := reads_iff.mp hreads
    rcases reads_fence hst with hfence | hcomment
    · exact ⟨st, houter, hfence⟩
    · have hline := hcomment.line (fence_paren []) (by decide)
      exact absurd (reads_iff.mpr ⟨st, houter, hline⟩) hparen
  · rintro ⟨st, houter, hfence⟩
    have hparen := hfence _ (fence_paren [])
    exact ⟨reads_iff.mpr ⟨st, houter, reads_of_fence (fence_paren []) hparen⟩,
      not_reads_unopened houter hparen⟩

theorem narrows_of_reads {text text' : List Char} {st st' : GroupState}
    (h : Relation.ReflTransGen Reads (.initial, text) (st, [])) (houter : st.outer = [])
    (h' : Relation.ReflTransGen Reads (.initial, text') (st', [])) (houter' : st'.outer = [])
    (hrefines : Refines st'.branches.close.pattern st.branches.close.pattern) :
    engine.Narrows text text' := by
  intro regex hregex
  obtain ⟨e, he, rfl⟩ := Option.map_eq_some_iff.mp hregex
  obtain rfl : st.branches.close = e :=
    Option.some.inj ((read?_eq_some.mpr ⟨st, h, houter, rfl⟩).symm.trans he)
  have hread' := read?_eq_some.mpr ⟨st', h', houter', rfl⟩
  exact ⟨_, Option.map_eq_some_iff.mpr ⟨_, hread', rfl⟩, fun _ => hrefines.matchesIn⟩

theorem narrows_of_forall {text text' : List Char}
    (h : ∀ st : GroupState, st.outer = [] →
      Relation.ReflTransGen Reads (.initial, text) (st, []) → engine.Narrows text text') :
    engine.Narrows text text' := by
  intro regex hregex
  obtain ⟨st, houter, hst⟩ := reads_iff.mp (Option.isSome_of_eq_some hregex)
  exact h st houter hst regex hregex

theorem narrows_start (text : List Char) : engine.Narrows text (['\\', 'A'] ++ text) := by
  refine narrows_of_forall fun st houter hst => ?_
  obtain ⟨last, hlast, hnarrowed⟩ := reads_narrowed hst (initial_narrowed .start)
  have hwhole : Relation.ReflTransGen Reads (.initial, ['\\', 'A'] ++ text) (last, []) :=
    .head ⟨List.cons_ne_nil _ _, rfl⟩ hlast
  have houter' : last.outer = [] := List.forall₂_nil_left_iff.mp (houter ▸ hnarrowed.outer)
  exact narrows_of_reads hst houter hwhole houter'
    (close_refines hnarrowed.branches.alternatives)

theorem reads_stop (st : GroupState) :
    Reads (st, ['\\', 'z']) (st.add (.plain (.assertion .stop)), []) := by
  refine ⟨List.cons_ne_nil _ _, ?_⟩
  have hread : (readElement st).run ['\\', 'z'] =
      .ok (st.add (.plain (.assertion .stop)), []) := rfl
  rw [groupStep, run_bind_ok hread, run_bind_ok (run_gaps _ _), gapped_of_no_gap rfl]
  rfl

theorem add_stop_refines (b : Branches) :
    Refines (b.add (.plain (.assertion .stop))).close.pattern b.close.pattern := by
  refine close_refines (.cons ?_ (List.forall₂_same.mpr fun e _ => .refl _))
  simp only [Branches.current, Branches.add, pattern_joined_sequenceOf, List.reverse_cons,
    List.map_append]
  exact sequenceOf_concat_refines (assertion_refines .stop) _

theorem narrows_stop (text : List Char) : engine.Narrows text (text ++ ['\\', 'z']) := by
  refine narrows_of_forall fun st houter hst => ?_
  have hslash : Fence ['\\', 'z'] := .inr rfl
  rcases reads_fence hst with hfence | hcomment
  · exact narrows_of_reads hst houter ((hfence _ hslash).tail (reads_stop st)) houter
      (add_stop_refines st.branches)
  · exact narrows_of_reads hst houter (hcomment.line hslash (by decide)) houter (.refl _)

def grouped (st : GroupState) : GroupState :=
  let inside := st.branches.close
  ⟨.initial, Branches.fresh.add (inside.around inside.pattern), [], st.names⟩

theorem narrows_group (text : List Char) (h : engine.Groupable text) :
    engine.Narrows text (['(', '?', ':'] ++ text ++ [')']) := by
  obtain ⟨st, houter, hfence⟩ := groupable_iff.mp h
  have hparen := hfence _ (fence_paren [])
  have hopen : Reads (.initial, ['(', '?', ':'] ++ text ++ [')'])
      (GroupState.initial.within [(.fresh, .initial)], text ++ [')']) :=
    ⟨List.cons_ne_nil _ _, rfl⟩
  have hclose : Reads (st.within [(.fresh, .initial)], [')']) (grouped st, []) := by
    obtain ⟨flags, branches, outer, names⟩ := st
    obtain rfl : outer = [] := houter
    exact ⟨List.cons_ne_nil _ _, rfl⟩
  have hwhole : Relation.ReflTransGen Reads (.initial, ['(', '?', ':'] ++ text ++ [')'])
      (grouped st, []) := .head hopen ((reads_within hparen _).tail hclose)
  exact narrows_of_reads (reads_of_fence (fence_paren []) hparen) houter hwhole rfl (.refl _)

theorem groupable_content (text : List Char)
    (h : engine.Reads (['\\', 'A', '(', '?', ':'] ++ text)) :
    ∃ inside rest, text = inside ++ ')' :: rest ∧ engine.Groupable inside := by
  obtain ⟨last, houter, hlast⟩ := reads_iff.mp h
  let frame : Branches × Flags := (⟨[], [.plain (.assertion .start)]⟩, .initial)
  have hopen : Relation.ReflTransGen Reads (.initial, ['\\', 'A', '(', '?', ':'] ++ text)
      (GroupState.initial.within [frame], text) :=
    .head ⟨List.cons_ne_nil _ _, rfl⟩ (.single ⟨List.cons_ne_nil _ _, rfl⟩)
  have hinside := (elements_of_reads hopen).symm.trans (elements_eq_ok.mpr ⟨rfl, hlast⟩)
  obtain ⟨st, rest, hst, houter'⟩ :=
    exists_closing (List.cons_ne_nil frame []) houter (elements_eq_ok.mp hinside).2
  obtain ⟨inside, rfl⟩ := reads_suffix hst
  refine ⟨inside, rest, rfl, groupable_iff.mpr ⟨st, houter', ?_⟩⟩
  rcases reads_fence (reads_of_fence (fence_paren rest) hst) with hfence | hcomment
  · exact hfence
  · exact absurd hst (hcomment.beyond (fence_paren rest) st)

theorem engine_lawful : engine.Lawful where
  start := narrows_start
  stop := narrows_stop
  group := narrows_group
  content := groupable_content
  unopened inside rest h hreads := by
    obtain ⟨st, houter, hfence⟩ := groupable_iff.mp h
    exact not_reads_unopened houter (hfence _ (fence_paren rest)) hreads
  comment text hreads hparen := by
    obtain ⟨st, houter, hst⟩ := reads_iff.mp hreads
    rcases reads_fence hst with hfence | hcomment
    · exact absurd hparen (groupable_iff.mpr ⟨st, houter, hfence⟩).2
    · exact hcomment.sign

end JsonPath.Pattern
