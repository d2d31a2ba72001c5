import JsonPath.Proofs.Segments

set_option autoImplicit false

/-!
# Queries without filters

The texts that are read as a query without filters are exactly its spellings. What a condition
looks like plays no part in them.
-/
namespace JsonPath
open Reader Spelling

def Selector.isFilter : Selector → Bool
  | .filter _ => true
  | _ => false

/-- No segment of the path has a filter among its selectors. -/
def Path.FilterFree (p : Path) : Prop :=
  ∀ segment ∈ p.segments, ∀ s ∈ segment.selectors, s.isFilter = false

instance (p : Path) : Decidable p.FilterFree :=
  inferInstanceAs (Decidable (∀ segment ∈ p.segments, ∀ s ∈ segment.selectors, s.isFilter = false))

namespace Spelling

def NoCondition (_ : Expr) (_ : List Char) : Prop := False

variable {mode : Mode} {condition : Expr → List Char → Prop}

theorem OfSelector.filterFree {s : Selector} {t : List Char} (h : OfSelector mode condition s t)
    (hs : s.isFilter = false) : OfSelector mode NoCondition s t := by
  cases h with
  | wildcard => exact .wildcard
  | member h => exact .member h
  | index h => exact .index h
  | slice ht hb hb' ht' ht'' => exact .slice ht hb hb' ht' ht''
  | filter hb h => cases hs

theorem OfList.filterFree {ss : List Selector} {t : List Char}
    (h : OfList (OfSelector mode condition) ss t) (hss : ∀ s ∈ ss, s.isFilter = false) :
    OfList (OfSelector mode NoCondition) ss t := by
  induction h with
  | one h => exact .one (h.filterFree (hss _ List.mem_cons_self))
  | more h hb hb' _ ih =>
    exact .more (h.filterFree (hss _ List.mem_cons_self)) hb hb'
      (ih fun s hs => hss s (List.mem_cons_of_mem _ hs))

theorem Bracketed.filterFree {ss : List Selector} {t : List Char}
    (h : Bracketed mode condition ss t) (hss : ∀ s ∈ ss, s.isFilter = false) :
    Bracketed mode NoCondition ss t := by
  cases h with
  | list hb h hb' => exact .list hb (h.filterFree hss) hb'

theorem OfSegment.filterFree {s : Segment} {t : List Char} (h : OfSegment mode condition s t)
    (hs : ∀ selector ∈ s.selectors, selector.isFilter = false) :
    OfSegment mode NoCondition s t := by
  cases h with
  | bracket h => exact .bracket (h.filterFree hs)
  | dot h => exact .dot h
  | dotsBracket h => exact .dotsBracket (h.filterFree hs)
  | dots h => exact .dots h

theorem OfSegments.filterFree {ss : List Segment} {t : List Char}
    (h : OfSegments mode condition ss t)
    (hss : ∀ s ∈ ss, ∀ selector ∈ s.selectors, selector.isFilter = false) :
    OfSegments mode NoCondition ss t := by
  induction h with
  | nil => exact .nil
  | cons hb h _ ih =>
    exact .cons hb (h.filterFree (hss _ List.mem_cons_self))
      (ih fun s hs => hss s (List.mem_cons_of_mem _ hs))

theorem OfPath.filterFree {p : Path} {t : List Char} (h : OfPath mode condition p t)
    (hp : p.FilterFree) : OfPath mode NoCondition p t := by
  cases h with
  | root hb hb' h bare => exact .root hb hb' (h.filterFree hp) bare

end Spelling

namespace Path

theorem recognises_some {α : Type} (item : QueryReader α) : Recognises item fun _ _ => True := by
  intro a input rest h
  obtain ⟨t, rfl⟩ := item.rest_suffix h
  exact ⟨t, rfl, trivial⟩

theorem readsItems_noCondition (item : QueryReader Expr) : ReadsItems item NoCondition := by
  intro e t rest h
  exact h.elim

/-- A text is read as a query without filters exactly when it is a spelling of the query. -/
theorem parse_filterFree_iff (mode : Mode) (text : String) (p : Path) (h : p.FilterFree) :
    Path.parse text mode = .ok p ↔ OfPath mode NoCondition p text.toList := by
  rw [Grammar.parse_eq_ok_iff]
  constructor
  · rintro ⟨rest, hrun⟩
    exact (Grammar.query_sound (recognises_some _) hrun).filterFree h
  · intro hspelt
    exact ⟨[], Grammar.query_run (readsItems_noCondition _) hspelt⟩

theorem parse_filterFree_blanks :
    let p : Path := ⟨.root, [.children [.slice none (some (-2)) none, .member "a/"],
      .descendants [.wildcard]]⟩
    p.FilterFree ∧ Path.parse "$ [:\t-2 ,\"\\u0061\\/\"]..*" .strict = .ok p := by
  intro p
  have hp : p.FilterFree := by decide
  refine ⟨hp, (parse_filterFree_iff .strict _ p hp).mpr ?_⟩
  have blank : Blanks [' '] := by simp [Blanks]
  have tab : Blanks ['\t'] := by simp [Blanks]
  have stop : OfIndex .strict (signed true ['2']) (signChars true ++ ['2']) :=
    .decimal true (by decide) (by simp) (by decide) (by decide) (by decide)
  have slice : OfSelector .strict NoCondition (.slice none (some (-2)) none)
      [':', '\t', '-', '2'] :=
    .slice .absent blanks_nil tab (.present stop) .absent
  have slash : OfCharacter .strict '"' '/' ['\\', '/'] := .short (by decide)
  have letter : OfCharacter .strict '"' 'a' ('\\' :: 'u' :: ['0', '0', '6', '1']) :=
    .unit (.digits (w := 0) (x := 0) (y := 6) (z := 1) rfl rfl rfl rfl)
  have name : OfString .strict "a/" ('"' :: (_ ++ ['"'])) :=
    .quoted '"' (.inr rfl) (.cons letter (.cons slash .nil))
  have list := OfList.more slice blank blanks_nil (.one (.member name))
  have segments := OfSegments.cons blank (.bracket (.list blanks_nil list blanks_nil))
    (.cons blanks_nil (.dots .wildcard) .nil)
  exact .root blanks_nil blanks_nil segments fun _ => ⟨rfl, rfl⟩

end Path
end JsonPath
