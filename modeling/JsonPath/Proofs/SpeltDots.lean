import JsonPath.IRegexp
import Mathlib.Data.List.Induction

set_option autoImplicit false

/-!
# Dots that are spelt out

Which dots of a pattern are spelt out can be said without reading the pattern: those that are not
escaped and before which the last bracket that is not escaped, if there is one, is a closing one.
-/
namespace JsonPath.IRegexp

/-- Whether the character behind a text is escaped: a backslash escapes the next character, unless
it is escaped itself. -/
def escapesNext (text : List Char) : Bool :=
  text.foldl (fun pending c => c == '\\' && !pending) false

/-- The last bracket in the text that is not escaped is an opening one. -/
def Opened (text : List Char) : Prop :=
  ∃ before behind, text = before ++ '[' :: behind ∧ escapesNext before = false ∧
    ∀ inside rest, behind = inside ++ ']' :: rest → escapesNext (before ++ '[' :: inside) = true

theorem escapesNext_concat (text : List Char) (c : Char) :
    escapesNext (text ++ [c]) = (c == '\\' && !escapesNext text) := by
  simp [escapesNext, List.foldl_append]

theorem escapesNext_concat_of_ne {c : Char} (hc : c ≠ '\\') (text : List Char) :
    escapesNext (text ++ [c]) = false := by
  simp [escapesNext_concat, hc]

theorem not_opened_nil : ¬ Opened [] := by
  rintro ⟨before, behind, htext, -⟩
  simp at htext

theorem opened_concat (text : List Char) (c : Char) :
    Opened (text ++ [c]) ↔ (escapesNext text = false ∧ c = '[') ∨
      (Opened text ∧ (escapesNext text = true ∨ c ≠ ']')) := by
  constructor
  · rintro ⟨before, behind, htext, hbefore, hbehind⟩
    rcases behind.eq_nil_or_concat with rfl | ⟨inside, d, rfl⟩
    · obtain ⟨rfl, hc⟩ := List.append_inj' htext rfl
      exact .inl ⟨hbefore, by simpa using hc⟩
    · rw [List.concat_eq_append, ← List.cons_append, ← List.append_assoc] at htext
      obtain ⟨rfl, hc⟩ := List.append_inj' htext rfl
      obtain rfl : c = d := by simpa using hc
      refine .inr ⟨⟨before, inside, rfl, hbefore, fun inside' rest h => ?_⟩, ?_⟩
      · exact hbehind inside' (rest ++ [c]) (by simp [h])
      · by_cases hclose : c = ']'
        · exact .inl (hbehind inside [] (by simp [hclose]))
        · exact .inr hclose
  · rintro (⟨htext, rfl⟩ | ⟨⟨before, behind, rfl, hbefore, hbehind⟩, hc⟩)
    · exact ⟨text, [], rfl, htext, by simp⟩
    · refine ⟨before, behind ++ [c], by simp, hbefore, fun inside rest h => ?_⟩
      rcases rest.eq_nil_or_concat with rfl | ⟨rest, d, rfl⟩
      · obtain ⟨rfl, hclose⟩ := List.append_inj' h rfl
        obtain rfl : c = ']' := by simpa using hclose
        exact hc.resolve_right (· rfl)
      · rw [List.concat_eq_append, ← List.cons_append, ← List.append_assoc] at h
        exact hbehind inside rest (List.append_inj' h rfl).1

theorem escapesNext_bracket {before : List Char} (h : escapesNext before = false)
    (rest : List Char) : escapesNext (before ++ '[' :: rest) = escapesNext ('[' :: rest) := by
  induction rest using List.reverseRecOn with
  | nil => rw [escapesNext_concat, h]; rfl
  | append_singleton rest c ih =>
    rw [← List.cons_append, ← List.append_assoc, escapesNext_concat, escapesNext_concat, ih]

theorem opened_bracket {before : List Char} (h : escapesNext before = false) (rest : List Char) :
    Opened (before ++ '[' :: rest) ↔ Opened ('[' :: rest) := by
  induction rest using List.reverseRecOn with
  | nil =>
    have hopens : Opened ['['] := (opened_concat [] '[').mpr (.inl ⟨rfl, rfl⟩)
    simp [opened_concat, h, hopens]
  | append_singleton rest c ih =>
    rw [← List.cons_append, ← List.append_assoc, opened_concat, opened_concat, ih,
      escapesNext_bracket h]

/-- Each dot in the rest of a text is escaped or behind a bracket that opens; what stands before the
rest counts. -/
def DotsKept (before rest : List Char) : Prop :=
  ∀ inside behind, rest = inside ++ '.' :: behind →
    escapesNext (before ++ inside) = true ∨ Opened (before ++ inside)

theorem dotsKept_nil (before : List Char) : DotsKept before [] := by
  intro inside behind h
  simp at h

theorem dotsKept_cons {before rest : List Char} {c : Char} :
    DotsKept before (c :: rest) ↔
      (c = '.' → escapesNext before = true ∨ Opened before) ∧ DotsKept (before ++ [c]) rest := by
  constructor
  · intro h
    refine ⟨?_, fun inside behind hrest => ?_⟩
    · rintro rfl
      simpa using h [] rest rfl
    · simpa using h (c :: inside) behind (by simp [hrest])
  · rintro ⟨hfirst, hrest⟩ inside behind h
    cases inside with
    | nil =>
      obtain ⟨rfl, rfl⟩ := List.cons.inj h
      simpa using hfirst rfl
    | cons d inside =>
      obtain ⟨rfl, htail⟩ := List.cons.inj h
      simpa using hrest inside behind htail

/-- A backslash that escapes nothing ends the text. -/
theorem lone_backslash {c : Char} {rest : List Char}
    (hplain : ∀ d tail, c = '\\' → rest = d :: tail → False) (hc : c = '\\') : rest = [] := by
  cases rest with
  | nil => rfl
  | cons d tail => exact (hplain d tail hc rfl).elim

theorem spellDots_rest_eq_iff {inClass : Bool} {before rest : List Char}
    (hbefore : escapesNext before = false) (hclass : inClass = true ↔ Opened before) :
    spellDots inClass rest = rest ↔ DotsKept before rest := by
  fun_induction spellDots inClass rest generalizing before with
  | case1 => simp [dotsKept_nil]
  | case2 inClass c rest ih =>
    -- the backslash and the character that it escapes
    have hslash : escapesNext (before ++ ['\\']) = true := by simp [escapesNext_concat, hbefore]
    have hopened : inClass = true ↔ Opened (before ++ ['\\'] ++ [c]) := by
      rw [hclass, opened_concat, opened_concat]
      simp [hslash]
    have hpair : escapesNext (before ++ ['\\'] ++ [c]) = false := by
      rw [escapesNext_concat, hslash]
      simp
    rw [dotsKept_cons, dotsKept_cons, ← ih hpair hopened]
    simp [hslash]
  | case3 c rest hplain ih =>
    by_cases hc : c = '\\'
    · obtain rfl := lone_backslash hplain hc
      simp [hc, spellDots, dotsKept_cons, dotsKept_nil]
    · have hopened : (c != ']') = true ↔ Opened (before ++ [c]) := by
        rw [opened_concat]
        by_cases hclose : c = ']' <;> simp [hbefore, hclass.mp rfl, hclose]
      rw [dotsKept_cons, ← ih (escapesNext_concat_of_ne hc before) hopened]
      simp [hclass.mp rfl]
  | case4 inClass rest houtside hplain ih =>
    -- a dot that is spelt out
    have hnot : ¬ Opened before := fun h => houtside (hclass.mpr h)
    rw [dotsKept_cons]
    simp [notLineBreak, hbefore, hnot]
  | case5 inClass c rest hplain houtside hdot ih =>
    have hnot : ¬ Opened before := fun h => houtside (hclass.mpr h)
    by_cases hc : c = '\\'
    · obtain rfl := lone_backslash hplain hc
      simp [hc, spellDots, dotsKept_cons, dotsKept_nil]
    · have hopened : (c == '[') = true ↔ Opened (before ++ [c]) := by
        rw [opened_concat]
        simp [hbefore, hnot]
      rw [dotsKept_cons, ← ih (escapesNext_concat_of_ne hc before) hopened]
      simp [hdot]

theorem mem_of_mem_spellDots {c : Char} (hc : c ∉ notLineBreak) {inClass : Bool}
    {text : List Char} (h : c ∈ spellDots inClass text) : c ∈ text := by
  fun_induction spellDots inClass text <;> grind

/-- A pattern is left as it is if each of its dots is escaped or behind a bracket that opens. -/
theorem spellDots_eq_iff (text : List Char) :
    spellDots false text = text ↔ ∀ before behind, text = before ++ '.' :: behind →
      escapesNext before = true ∨ Opened before :=
  @spellDots_rest_eq_iff false [] text rfl (by simp [not_opened_nil])

/-- What a grammar may say about the classes in a text: `isClass before cls behind` if the class
`cls` stands between the other two parts. A class begins with a bracket that is not escaped. -/
structure Delimits (isClass : List Char → List Char → List Char → Prop) (text : List Char) :
    Prop where
  parts : ∀ ⦃before cls behind⦄, isClass before cls behind → text = before ++ cls ++ behind
  bracket : ∀ ⦃before cls behind⦄, isClass before cls behind →
    escapesNext before = false ∧ cls.head? = some '['

/-- No dot in a class has a closing bracket before it in the class, unless an opening one follows.
Brackets that are escaped do not count. -/
def ClassesOpen (isClass : List Char → List Char → List Char → Prop) : Prop :=
  ∀ before inside rest behind, isClass before (inside ++ '.' :: rest) behind →
    escapesNext inside = true ∨ Opened inside

/-- Before a dot in a class nothing but the class counts. -/
theorem Delimits.inside {isClass : List Char → List Char → List Char → Prop} {text : List Char}
    (delimits : Delimits isClass text) {before inside rest behind : List Char}
    (h : isClass before (inside ++ '.' :: rest) behind) :
    escapesNext (before ++ inside) = escapesNext inside ∧
      (Opened (before ++ inside) ↔ Opened inside) := by
  obtain ⟨hbefore, hhead⟩ := delimits.bracket h
  cases inside with
  | nil => simp at hhead
  | cons c inside =>
    obtain rfl : c = '[' := by simpa using hhead
    exact ⟨escapesNext_bracket hbefore inside, opened_bracket hbefore inside⟩

end JsonPath.IRegexp
