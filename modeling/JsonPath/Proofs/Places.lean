import JsonPath.Pattern.Matching
import Mathlib.Data.List.Forall2
import Mathlib.Logic.Function.Iterate

set_option autoImplicit false

/-!
# More places

A match that may begin at more places may end at more places. So a pattern that demands more of the
places on its way than another one reaches no more places and matches no more texts.
-/
namespace JsonPath.Pattern

abbrev Places.Within (here there : Places) : Prop :=
  List.Forall₂ (fun marked marked' => marked = true → marked' = true) here there

namespace Places

variable {here there : Places}

theorem Within.refl (here : Places) : Within here here := List.forall₂_same.mpr fun _ _ => id

theorem Within.trans {beyond : Places} (h : Within here there) (h' : Within there beyond) :
    Within here beyond := by
  induction h generalizing beyond with
  | nil => exact h'
  | cons hmarked _ ih =>
    cases h' with
    | cons hmarked' hrest' => exact .cons (hmarked' ∘ hmarked) (ih hrest')

theorem Within.any (h : Within here there) (hany : here.any id = true) : there.any id = true := by
  induction h with
  | nil => exact hany
  | cons hmarked _ ih =>
    rw [List.any_cons, Bool.or_eq_true] at hany ⊢
    exact hany.imp hmarked ih

theorem Within.zipWith {α : Type} (keeps : α → Bool) (h : Within here there) (sides : List α) :
    Within (List.zipWith (fun marked side => marked && keeps side) here sides)
      (List.zipWith (fun marked side => marked && keeps side) there sides) := by
  induction h generalizing sides with
  | nil => exact .nil
  | cons hmarked _ ih =>
    cases sides with
    | nil => exact .nil
    | cons side sides =>
      refine .cons (fun hkept => ?_) (ih sides)
      rw [Bool.and_eq_true] at hkept ⊢
      exact hkept.imp_left hmarked

theorem zipWith_within {α : Type} (keeps : α → Bool) {here : Places} {sides : List α}
    (h : here.length ≤ sides.length) :
    Within (List.zipWith (fun marked side => marked && keeps side) here sides) here := by
  induction here generalizing sides with
  | nil => exact .nil
  | cons marked here ih =>
    cases sides with
    | nil => simp at h
    | cons side sides =>
      exact .cons (fun hkept => (Bool.and_eq_true_iff.mp hkept).1) (ih (Nat.le_of_succ_le_succ h))

theorem Within.union {here' there' : Places} (h : Within here there) (h' : Within here' there') :
    Within (here.union here') (there.union there') := by
  induction h generalizing here' there' with
  | nil => exact .nil
  | cons hmarked _ ih =>
    cases h' with
    | nil => exact .nil
    | cons hmarked' hrest' =>
      refine .cons (fun hor => ?_) (ih hrest')
      rw [Bool.or_eq_true] at hor ⊢
      exact hor.imp hmarked hmarked'

theorem length_neighbours (before : Option Char) (text : List Char) :
    (neighbours before text).length = text.length + 1 := by
  induction text generalizing before with
  | nil => rfl
  | cons c rest ih => rw [neighbours, List.length_cons, ih, List.length_cons]

theorem times_eq (step : Places → Places) (n : Nat) (here : Places) :
    times step n here = step^[n] here := by
  induction n generalizing here with
  | zero => rfl
  | succ n ih =>
    rw [times, Function.iterate_succ_apply]
    split
    · next hfixed => rw [hfixed, Function.iterate_fixed hfixed]
    · exact ih _

theorem upTo_eq (step : Places → Places) (n : Nat) (here : Places) :
    upTo step n here = (fun places => union places (step places))^[n] here := by
  induction n generalizing here with
  | zero => rfl
  | succ n ih =>
    rw [upTo, Function.iterate_succ_apply]
    split
    · next hfixed => rw [hfixed, Function.iterate_fixed hfixed]
    · exact ih _

theorem Within.iterate {step : Places → Places}
    (hstep : ∀ {here there}, Within here there → Within (step here) (step there)) (n : Nat)
    (h : Within here there) : Within (step^[n] here) (step^[n] there) := by
  induction n generalizing here there with
  | zero => exact h
  | succ n ih => exact ih (hstep h)

end Places

open Places

theorem length_iterate {step : Places → Places} {length : Nat}
    (hstep : ∀ {here}, here.length = length → (step here).length = length) {here : Places}
    (h : here.length = length) (n : Nat) : (step^[n] here).length = length := by
  induction n generalizing here with
  | zero => exact h
  | succ n ih => exact ih (hstep h)

theorem length_reach (p : Pattern) {text : List Char} {here : Places}
    (h : here.length = text.length + 1) : (p.reach text here).length = text.length + 1 := by
  induction p generalizing here with
  | empty => exact h
  | char set => simp [reach, Places.advance, h]
  | assertion a => simp [reach, Places.satisfying, length_neighbours, h]
  | sequence p q ihp ihq => exact ihq (ihp h)
  | either p q ihp ihq => simp [reach, Places.union, ihp h, ihq h]
  | repeated p least most ih =>
    simp only [reach, times_eq, upTo_eq]
    refine length_iterate (fun h' => ?_) (length_iterate ih h least) _
    simp [Places.union, h', ih h']

theorem reach_within (text : List Char) (p : Pattern) {here there : Places}
    (h : Within here there) : Within (p.reach text here) (p.reach text there) := by
  induction p generalizing here there with
  | empty => exact h
  | char set => exact .cons id (h.zipWith set text)
  | assertion a => exact h.zipWith (fun sides => a.holds sides.1 sides.2) (neighbours none text)
  | sequence p q ihp ihq => exact ihq (ihp h)
  | either p q ihp ihq => exact (ihp h).union (ihq h)
  | repeated p least most ih =>
    simp only [reach, times_eq, upTo_eq]
    exact Within.iterate (fun h' => h'.union (ih h')) _ (Within.iterate ih least h)

/-- Wherever matches begin, those of the first pattern end at places where some of the second
pattern do. -/
def Refines (p q : Pattern) : Prop :=
  ∀ (text : List Char) (here : Places), here.length = text.length + 1 →
    Within (p.reach text here) (q.reach text here)

theorem Refines.refl (p : Pattern) : Refines p p := fun _ _ _ => .refl _

theorem Refines.trans {p q r : Pattern} (h : Refines p q) (h' : Refines q r) : Refines p r :=
  fun text here hhere => (h text here hhere).trans (h' text here hhere)

theorem Refines.matchesIn {p q : Pattern} (h : Refines p q) {text : List Char}
    (hmatch : p.matchesIn text = true) : q.matchesIn text = true :=
  (h text _ (by simp)).any hmatch

theorem assertion_refines (a : Assertion) : Refines (.assertion a) .empty := by
  intro text here h
  have hlength : here.length ≤ (neighbours none text).length := by simp [length_neighbours, h]
  exact zipWith_within (fun sides => a.holds sides.1 sides.2) hlength

theorem Refines.sequence {p p' q q' : Pattern} (hp : Refines p p') (hq : Refines q q') :
    Refines (.sequence p q) (.sequence p' q') :=
  fun text here h => (reach_within text q (hp text here h)).trans (hq text _ (length_reach p' h))

theorem Refines.either {p p' q q' : Pattern} (hp : Refines p p') (hq : Refines q q') :
    Refines (.either p q) (.either p' q') :=
  fun text here h => (hp text here h).union (hq text here h)

theorem within_iterate {step step' : Places → Places} {length : Nat}
    (hmono : ∀ {here there}, Within here there → Within (step here) (step there))
    (hlength : ∀ {here}, here.length = length → (step' here).length = length)
    (hstep : ∀ {here}, here.length = length → Within (step here) (step' here)) {here : Places}
    (h : here.length = length) (n : Nat) : Within (step^[n] here) (step'^[n] here) := by
  induction n generalizing here with
  | zero => exact .refl here
  | succ n ih => exact (Within.iterate hmono n (hstep h)).trans (ih (hlength h))

theorem Refines.repeated {p q : Pattern} (h : Refines p q) (least : Nat) (most : Option Nat) :
    Refines (.repeated p least most) (.repeated q least most) := by
  intro text here hhere
  simp only [reach, times_eq, upTo_eq]
  have hmono {here there : Places} (h' : Within here there) := reach_within text p h'
  have hleast := within_iterate hmono (length_reach q) (h text _) hhere least
  have hlength := length_iterate (length_reach q) hhere least
  refine (Within.iterate (fun h' => h'.union (hmono h')) _ hleast).trans ?_
  refine within_iterate (fun h' => h'.union (hmono h')) (fun h' => ?_) (fun h' => ?_) hlength _
  · simp [Places.union, h', length_reach q h']
  · exact (Within.refl _).union (h text _ h')

theorem reach_sequenceOf (text : List Char) (ps : List Pattern) (here : Places) :
    (sequenceOf ps).reach text here = ps.foldl (fun places p => p.reach text places) here := by
  induction ps generalizing here with
  | nil => rfl
  | cons p rest ih =>
    cases rest with
    | nil => rfl
    | cons q rest => exact ih _

theorem Refines.sequenceOf {ps qs : List Pattern} (h : List.Forall₂ Refines ps qs) :
    Refines (sequenceOf ps) (sequenceOf qs) := by
  induction h with
  | nil => exact .refl _
  | cons hp hrest ih =>
    cases hrest with
    | nil => exact hp
    | cons => exact hp.sequence ih

theorem Refines.eitherOf {ps qs : List Pattern} (h : List.Forall₂ Refines ps qs) :
    Refines (eitherOf ps) (eitherOf qs) := by
  induction h with
  | nil => exact .refl _
  | cons hp hrest ih =>
    cases hrest with
    | nil => exact hp
    | cons => exact hp.either ih

theorem sequenceOf_cons_refines {p : Pattern} (hp : Refines p .empty) (ps : List Pattern) :
    Refines (sequenceOf (p :: ps)) (sequenceOf ps) := by
  intro text here h
  rw [reach_sequenceOf, List.foldl_cons, ← reach_sequenceOf]
  exact reach_within text _ (hp text here h)

theorem sequenceOf_concat_refines {p : Pattern} (hp : Refines p .empty) (ps : List Pattern) :
    Refines (sequenceOf (ps ++ [p])) (sequenceOf ps) := by
  intro text here h
  rw [reach_sequenceOf, List.foldl_concat, ← reach_sequenceOf]
  exact hp text _ (length_reach _ h)

end JsonPath.Pattern
