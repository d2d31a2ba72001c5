import JsonPath.Proofs.LawfulPatterns
import JsonPath.Proofs.SpeltDots

set_option autoImplicit false

/-!
# Anchored patterns

For `match` the text of a pattern is put in a group between two assertions. That makes the pattern
that is meant, provided that the text keeps to the group: that it closes no group that it has not
opened, and does not end in a comment, which would hide the end of the group.
-/
namespace JsonPath.IRegexp

namespace Engine

variable {engine : Engine} {text : List Char}

/-- The text begins with a pattern and a parenthesis that closes a group around it. -/
def ClosesOutside (engine : Engine) (text : List Char) : Prop :=
  ∃ inside rest, text = inside ++ ')' :: rest ∧ engine.Groupable inside

/-- The text spells a pattern, and so it does with a parenthesis behind it. -/
def EndsInComment (engine : Engine) (text : List Char) : Prop :=
  engine.Reads text ∧ engine.Reads (text ++ [')'])

theorem Narrows.trans {text' text'' : List Char} (h : engine.Narrows text text')
    (h' : engine.Narrows text' text'') : engine.Narrows text text'' := by
  intro regex hregex
  obtain ⟨regex', hregex', hmatch⟩ := h regex hregex
  obtain ⟨regex'', hregex'', hmatch'⟩ := h' regex' hregex'
  exact ⟨regex'', hregex'', fun subject hsubject => hmatch subject (hmatch' subject hsubject)⟩

theorem Narrows.reads {text' : List Char} (h : engine.Narrows text text')
    (hreads : engine.Reads text) : engine.Reads text' := by
  obtain ⟨regex, hregex⟩ := Option.isSome_iff_exists.mp hreads
  obtain ⟨regex', hregex', -⟩ := h regex hregex
  exact Option.isSome_iff_exists.mpr ⟨regex', hregex'⟩

theorem groupable_of_not_endsInComment (hreads : engine.Reads text)
    (h : ¬ engine.EndsInComment text) : engine.Groupable text :=
  ⟨hreads, fun hparen => h ⟨hreads, hparen⟩⟩

theorem Groupable.not_endsInComment (h : engine.Groupable text) : ¬ engine.EndsInComment text :=
  fun hcomment => h.2 hcomment.2

section
variable (lawful : engine.Lawful)
include lawful

theorem not_closesOutside_of_reads (hreads : engine.Reads text) :
    ¬ engine.ClosesOutside text := by
  rintro ⟨inside, rest, rfl, hinside⟩
  exact lawful.unopened inside rest hinside hreads

theorem Groupable.narrows_anchored (h : engine.Groupable text) :
    engine.Narrows text (anchored text) := by
  have hgroup := (lawful.group text h).trans (lawful.start _)
  have hanchored := hgroup.trans (lawful.stop _)
  rwa [show anchored text = ['\\', 'A'] ++ (['(', '?', ':'] ++ text ++ [')']) ++ ['\\', 'z'] by
    simp [anchored]]

/-- The group is closed at its end, if the text does not close it before. -/
theorem groupable_of_anchored (hreads : engine.Reads (anchored text))
    (hstays : ¬ engine.ClosesOutside text) : engine.Groupable text := by
  have hopened : engine.Reads (['\\', 'A', '(', '?', ':'] ++ (text ++ [')', '\\', 'z'])) := by
    rwa [← List.append_assoc]
  obtain ⟨inside, rest, htext, hinside⟩ := lawful.content _ hopened
  rcases List.append_eq_append_iff.mp htext with ⟨more, rfl, hmore⟩ | ⟨more, rfl, hmore⟩
  · rcases more with _ | ⟨c, more⟩
    · rwa [List.append_nil] at hinside
    · -- no other parenthesis stands behind the text
      have hmem : ')' ∈ ['\\', 'z'] := by
        rw [(List.cons.inj hmore).2]
        simp
      simp at hmem
  · rcases more with _ | ⟨c, more⟩
    · rwa [List.append_nil]
    · obtain rfl : ')' = c := (List.cons.inj hmore).1
      exact absurd ⟨inside, more, rfl, hinside⟩ hstays

theorem reads_anchored_iff (text : List Char) :
    engine.Reads (anchored text) ∧ ¬ engine.ClosesOutside text ↔
      engine.Reads text ∧ ¬ engine.EndsInComment text := by
  constructor
  · rintro ⟨hreads, hstays⟩
    have hgroupable := groupable_of_anchored lawful hreads hstays
    exact ⟨hgroupable.1, hgroupable.not_endsInComment⟩
  · rintro ⟨hreads, hcomment⟩
    have hgroupable := groupable_of_not_endsInComment hreads hcomment
    exact ⟨(hgroupable.narrows_anchored lawful).reads hreads,
      not_closesOutside_of_reads lawful hreads⟩

end

theorem compile_eq_some {pattern : String} {scope : Scope} {regex : Regex} :
    engine.compile pattern scope = some regex ↔
      engine.read? (spelling pattern.toList scope) = some regex ∧ regex.fits = true :=
  Option.filter_eq_some_iff

theorem test_eq_true {subject pattern : String} {scope : Scope} :
    engine.test subject pattern scope = true ↔ ∃ regex,
      engine.compile pattern scope = some regex ∧ regex.matchesIn subject.toList = true := by
  unfold test
  cases engine.compile pattern scope <;> simp

/-- If the limits of the engine tell the anchored pattern and the pattern alone not apart, then the
one is valid without closing the group around it exactly if the other is valid and does not end in a
comment, for which it needs a number sign. Then what matches the anchored pattern has a part that
matches the pattern alone. Nothing matches a pattern that is not valid. -/
theorem compile_whole_part (engine : Engine) (lawful : engine.Lawful) (p : String)
    (limits : ∀ whole part, engine.read? (spelling p.toList .whole) = some whole →
      engine.read? (spelling p.toList .part) = some part → whole.fits = part.fits) :
    ((engine.compile p .whole).isSome ∧ ¬ engine.ClosesOutside (spelling p.toList .part) ↔
      (engine.compile p .part).isSome ∧ ¬ engine.EndsInComment (spelling p.toList .part)) ∧
    (engine.EndsInComment (spelling p.toList .part) → '#' ∈ p.toList) ∧
    (¬ engine.ClosesOutside (spelling p.toList .part) →
      ∀ text, engine.test text p .whole = true → engine.test text p .part = true) ∧
    ∀ scope, engine.compile p scope = none → ∀ text, engine.test text p scope = false := by
  have hiff := reads_anchored_iff lawful (spelling p.toList .part)
  refine ⟨?_, fun hcomment => ?_, fun hstays text hmatch => ?_, fun scope hnone text => ?_⟩
  · constructor
    · rintro ⟨hvalid, hstays⟩
      obtain ⟨whole, hwhole⟩ := Option.isSome_iff_exists.mp hvalid
      obtain ⟨hread, hfits⟩ := compile_eq_some.mp hwhole
      obtain ⟨hreads, hcomment⟩ := hiff.mp ⟨Option.isSome_of_eq_some hread, hstays⟩
      obtain ⟨part, hpart⟩ := Option.isSome_iff_exists.mp hreads
      have hfits' := (limits whole part hread hpart).symm.trans hfits
      exact ⟨Option.isSome_of_eq_some (compile_eq_some.mpr ⟨hpart, hfits'⟩), hcomment⟩
    · rintro ⟨hvalid, hcomment⟩
      obtain ⟨part, hpart⟩ := Option.isSome_iff_exists.mp hvalid
      obtain ⟨hread, hfits⟩ := compile_eq_some.mp hpart
      obtain ⟨hreads, hstays⟩ := hiff.mpr ⟨Option.isSome_of_eq_some hread, hcomment⟩
      obtain ⟨whole, hwhole⟩ := Option.isSome_iff_exists.mp hreads
      have hfits' := (limits whole part hwhole hread).trans hfits
      exact ⟨Option.isSome_of_eq_some (compile_eq_some.mpr ⟨hwhole, hfits'⟩), hstays⟩
  · have hmem : '#' ∈ spellDots false p.toList := lawful.comment _ hcomment.1 hcomment.2
    exact mem_of_mem_spellDots (by decide) hmem
  · obtain ⟨whole, hwhole, hmatches⟩ := test_eq_true.mp hmatch
    obtain ⟨hread, hfits⟩ := compile_eq_some.mp hwhole
    have hgroupable := groupable_of_anchored lawful (Option.isSome_of_eq_some hread) hstays
    obtain ⟨part, hpart⟩ := Option.isSome_iff_exists.mp hgroupable.1
    obtain ⟨whole', hwhole', hnarrow⟩ := hgroupable.narrows_anchored lawful part hpart
    obtain rfl : whole' = whole := Option.some.inj (hwhole'.symm.trans hread)
    have hfits' := (limits _ part hread hpart).symm.trans hfits
    exact test_eq_true.mpr ⟨part, compile_eq_some.mpr ⟨hpart, hfits'⟩, hnarrow _ hmatches⟩
  · rw [test, hnone]

theorem compile_whole_part_group :
    Pattern.engine.Lawful ∧
    (∀ whole part, Pattern.engine.read? (spelling "(a|b)+".toList .whole) = some whole →
      Pattern.engine.read? (spelling "(a|b)+".toList .part) = some part →
        whole.fits = part.fits) ∧
    ¬ Pattern.engine.ClosesOutside (spelling "(a|b)+".toList .part) ∧
    (Pattern.engine.compile "(a|b)+" .whole).isSome ∧
    (Pattern.engine.compile "(a|b)+" .part).isSome ∧
    ∀ text, Pattern.engine.test text "(a|b)+" .whole = true →
      Pattern.engine.test text "(a|b)+" .part = true := by
  have hfits : ∀ scope regex, Pattern.engine.read? (spelling "(a|b)+".toList scope) = some regex →
      regex.fits = true := by
    intro scope regex h
    have hmap : (Pattern.engine.read? (spelling "(a|b)+".toList scope)).map Regex.fits =
        some true := by
      cases scope <;> with_unfolding_all rfl
    rw [h] at hmap
    exact Option.some.inj hmap
  have limits : ∀ whole part,
      Pattern.engine.read? (spelling "(a|b)+".toList .whole) = some whole →
      Pattern.engine.read? (spelling "(a|b)+".toList .part) = some part →
        whole.fits = part.fits :=
    fun whole part hwhole hpart => (hfits _ whole hwhole).trans (hfits _ part hpart).symm
  have hreads : Pattern.engine.Reads (spelling "(a|b)+".toList .part) := by
    with_unfolding_all rfl
  have hstays := not_closesOutside_of_reads Pattern.engine_lawful hreads
  have hwhole : (Pattern.engine.compile "(a|b)+" .whole).isSome = true := by
    with_unfolding_all rfl
  obtain ⟨hvalid, -, hmatches, -⟩ :=
    compile_whole_part Pattern.engine Pattern.engine_lawful "(a|b)+" limits
  exact ⟨Pattern.engine_lawful, limits, hstays, hwhole, (hvalid.mp ⟨hwhole, hstays⟩).1,
    hmatches hstays⟩

/-- A text that is no pattern makes one with the wrapper if it closes the group of the wrapper and
opens another, and a text that is a pattern makes none if it ends in a comment. -/
theorem compile_whole_part_differ :
    ((Pattern.engine.compile "a)(?:b" .part).isSome = false ∧
      (Pattern.engine.compile "a)(?:b" .whole).isSome = true ∧
      Pattern.engine.test "ab" "a)(?:b" .whole = true ∧
      Pattern.engine.test "ab" "a)(?:b" .part = false) ∧
    (Pattern.engine.compile "(?x)a#b" .part).isSome = true ∧
      (Pattern.engine.compile "(?x)a#b" .whole).isSome = false := by
  refine ⟨⟨?_, ?_, ?_, ?_⟩, ?_, ?_⟩ <;> with_unfolding_all rfl

end Engine
end JsonPath.IRegexp
