import JsonPath.Proofs.Selectors

set_option autoImplicit false

/-!
# Segments and whole queries

Segments are read from exactly their spellings, in front of a text that neither goes on with a
segment nor with the last name. A whole query leaves nothing behind it.
-/
namespace JsonPath.Grammar
open Reader Spelling

variable {mode : Mode} {inner : Nested} {condition : Expr → List Char → Prop}

theorem selector_bracket (tail : List Char) (s : Selector) (rest : List Char) :
    (selector mode inner).run (']' :: tail) ≠ .ok (s, rest) := by
  intro h
  cases h

theorem bracketed_eq_ok_iff {ss : List Selector} {input rest : List Char} :
    (bracketed mode inner).run input = .ok (ss, rest) ↔
      ∃ tail between, input = '[' :: tail ∧
        (commaList (selector mode inner)).run (tail.dropWhile isBlank) = .ok (ss, between) ∧
        between.dropWhile isBlank = ']' :: rest := by
  rw [bracketed, run_bind_ok (run_remaining _)]
  simp only [run_bind_eq_ok, run_expect_eq_ok, run_blanks, run_peek]
  constructor
  · rintro ⟨_, tail, rfl, _, _, ⟨⟩, _, _, ⟨⟩, h⟩
    split at h
    · cases h
    · simp only [run_bind_eq_ok, run_expect_eq_ok, run_blanks, run_pure] at h
      obtain ⟨_, between, hlist, _, _, ⟨⟩, _, _, hclose, ⟨⟩⟩ := h
      exact ⟨tail, between, rfl, hlist, hclose⟩
  · rintro ⟨tail, between, rfl, hlist, hclose⟩
    refine ⟨(), tail, rfl, (), _, rfl, _, _, rfl, ?_⟩
    split
    · next hbracket =>
      obtain ⟨more, hmore⟩ := List.head?_eq_some_iff.mp hbracket
      obtain ⟨s, _, _, hs, -⟩ := commaList_eq_ok_iff.mp hlist
      rw [hmore] at hs
      exact absurd hs (selector_bracket more s _)
    · simp only [run_bind_eq_ok, run_expect_eq_ok, run_blanks, run_pure]
      exact ⟨ss, between, hlist, (), _, rfl, (), rest, hclose, rfl⟩

theorem bracketed_run (hinner : ReadsItems inner.expression condition) {ss : List Selector}
    {t : List Char} (h : Bracketed mode condition ss t) (rest : List Char) :
    (bracketed mode inner).run (t ++ rest) = .ok (ss, rest) := by
  cases h with
  | @list b t b' hb h hb' =>
    have hclose := dropWhile_blanks_cons hb' (c := ']') (by decide) rest
    obtain ⟨between, hlist, hsame⟩ :=
      commaList_run (selector_run hinner) h ⟨']', rest, hclose, .inl rfl⟩
    refine bracketed_eq_ok_iff.mpr ⟨b ++ (t ++ (b' ++ ']' :: rest)), between, by simp, ?_, ?_⟩
    · rw [dropWhile_blanks hb, hlist]
    · rw [hsame, hclose]

theorem bracketed_sound (hinner : Recognises inner.expression condition) :
    Recognises (bracketed mode inner) (Bracketed mode condition) := by
  intro ss input rest h
  obtain ⟨tail, between, rfl, hlist, hclose⟩ := bracketed_eq_ok_iff.mp h
  obtain ⟨t, ht, hspelt⟩ := commaList_sound (selector_sound hinner) hlist
  obtain ⟨b, hb, htail⟩ := exists_blanks tail
  obtain ⟨b', hb', hbetween⟩ := exists_blanks between
  refine ⟨'[' :: (b ++ (t ++ (b' ++ [']']))), ?_, .list hb hspelt hb'⟩
  calc
    '[' :: tail = '[' :: (b ++ (t ++ between)) := by rw [← ht, ← htail]
    _ = '[' :: (b ++ (t ++ (b' ++ ']' :: rest))) := by rw [← hclose, ← hbetween]
    _ = _ := by simp

/-- No further character of a name after a dot stands next. -/
def EndsName (mode : Mode) (rest : List Char) : Prop :=
  ∀ c ∈ rest.head?, ¬ (Name.isLater c = true ∨ mode = .lenient ∧ c = '-')

theorem shorthand_iff (name : List Char) :
    Shorthand mode name ↔ ∃ c tail, name = c :: tail ∧ Name.isFirst c = true ∧
      ∀ d ∈ tail, Name.isLater d = true ∨ mode = .lenient ∧ d = '-' := by
  cases name with
  | nil => simp [Shorthand]
  | cons c tail =>
    constructor
    · exact fun h => ⟨c, tail, rfl, h⟩
    · rintro ⟨_, _, ⟨⟩, h⟩
      exact h

theorem shorthandName_eq (input : List Char) :
    (shorthandName mode).run input =
      .ok (String.ofList
          (input.takeWhile fun c => Name.isLater c || (mode = .lenient && c == '-')),
        input.dropWhile fun c => Name.isLater c || (mode = .lenient && c == '-')) := rfl

theorem shorthandName_run {name : String} {rest : List Char} (h : Shorthand mode name.toList)
    (hrest : EndsName mode rest) :
    (shorthandName mode).run (name.toList ++ rest) = .ok (name, rest) := by
  obtain ⟨c, tail, hname, hc, htail⟩ := (shorthand_iff _).mp h
  have hall : ∀ d ∈ name.toList, (Name.isLater d || (mode = .lenient && d == '-')) = true := by
    rw [hname]
    intro d hd
    rcases List.mem_cons.mp hd with rfl | hd
    · simp [Name.isLater, hc]
    · simpa using htail d hd
  have hend : ∀ d ∈ rest.head?, (Name.isLater d || (mode = .lenient && d == '-')) = false := by
    intro d hd
    simpa using hrest d hd
  rw [shorthandName_eq, takeWhile_append_of_all hall hend, dropWhile_append_of_all hall hend,
    String.ofList_toList]

theorem shorthandName_sound {name : String} {c : Char} {input rest : List Char}
    (hc : Name.isFirst c = true) (h : (shorthandName mode).run (c :: input) = .ok (name, rest)) :
    c :: input = name.toList ++ rest ∧ Shorthand mode name.toList := by
  rw [shorthandName_eq] at h
  cases h
  have hlater : (Name.isLater c || (mode = .lenient && c == '-')) = true := by
    simp [Name.isLater, hc]
  rw [String.toList_ofList]
  refine ⟨List.takeWhile_append_dropWhile.symm, (shorthand_iff _).mpr ?_⟩
  exact ⟨c, _, List.takeWhile_cons_of_pos hlater, hc, fun d hd => by simpa using takeWhile_all hd⟩

theorem dotted_bracket (input : List Char) :
    (dotted mode inner true).run ('[' :: input) = (bracketed mode inner).run ('[' :: input) := rfl

theorem dotted_name {c : Char} (hc : Name.isFirst c = true) (descendant : Bool)
    (input : List Char) :
    (dotted mode inner descendant).run (c :: input) =
      ((fun name => [Selector.member name]) <$> shorthandName mode).run (c :: input) := by
  have hbracket : c ≠ '[' := by
    rintro rfl
    revert hc
    decide
  rw [dotted, run_bind_ok (run_peek _)]
  split
  · next heq =>
    cases heq
    exact absurd hc (by decide)
  · next heq =>
    cases heq
    rw [if_neg (by simp [hbracket]), if_pos hc]
  · next heq => cases heq

theorem dotted_run {ss : List Selector} {t rest : List Char} (h : Dotted mode ss t)
    (hrest : EndsName mode rest) (descendant : Bool) :
    (dotted mode inner descendant).run (t ++ rest) = .ok (ss, rest) := by
  cases h with
  | wildcard => rfl
  | @name name h =>
    have hrun := shorthandName_run h hrest
    obtain ⟨c, tail, hname, hc, -⟩ := (shorthand_iff _).mp h
    rw [hname, List.cons_append] at hrun ⊢
    rw [dotted_name hc]
    exact run_map_eq_ok.mpr ⟨_, hrun, rfl⟩

theorem dotted_sound (hinner : Recognises inner.expression condition) {ss : List Selector}
    {descendant : Bool} {input rest : List Char}
    (h : (dotted mode inner descendant).run input = .ok (ss, rest)) :
    ∃ t, input = t ++ rest ∧
      (Dotted mode ss t ∨ descendant = true ∧ Bracketed mode condition ss t) := by
  cases input with
  | nil => cases h
  | cons c input =>
    by_cases hstar : c = '*'
    · subst hstar
      cases h
      exact ⟨['*'], rfl, .inl .wildcard⟩
    by_cases hbracket : descendant = true ∧ c = '['
    · obtain ⟨rfl, rfl⟩ := hbracket
      rw [dotted_bracket] at h
      obtain ⟨t, ht, hspelt⟩ := bracketed_sound hinner h
      exact ⟨t, ht, .inr ⟨rfl, hspelt⟩⟩
    by_cases hfirst : Name.isFirst c = true
    · rw [dotted_name hfirst] at h
      obtain ⟨name, hname, rfl⟩ := run_map_eq_ok.mp h
      obtain ⟨ht, hspelt⟩ := shorthandName_sound hfirst hname
      exact ⟨name.toList, ht, .inl (.name hspelt)⟩
    · rw [dotted, run_bind_ok (run_peek _)] at h
      simp [hbracket, hfirst] at h

theorem segment_blanks (input : List Char) :
    (segment mode inner).run input = (segment mode inner).run (input.dropWhile isBlank) := by
  simp only [segment, run_bind_ok (run_blanks _), List.dropWhile_idempotent]

theorem segment_dots (input : List Char) :
    (segment mode inner).run ('.' :: '.' :: input) =
      (Segment.descendants <$> dotted mode inner true).run input := rfl

theorem segment_dot {input : List Char} (h : input.head? ≠ some '.') :
    (segment mode inner).run ('.' :: input) =
      (Segment.children <$> dotted mode inner false).run input := by
  have haccept : (accept '.' : QueryReader Bool).run input = .ok (false, input) :=
    run_accept_other h
  change ((accept '.' : QueryReader Bool) >>= fun dots =>
    if dots then Segment.descendants <$> dotted mode inner true
    else Segment.children <$> dotted mode inner false).run input = _
  rw [run_bind_ok haccept]
  rfl

theorem segment_other {c : Char} (hblank : isBlank c = false) (hdot : c ≠ '.')
    (input : List Char) :
    (segment mode inner).run (c :: input) =
      (Segment.children <$> bracketed mode inner).run (c :: input) := by
  rw [segment, run_bind_ok (run_blanks _), dropWhile_nonblank hblank, run_bind_ok (run_peek _)]
  split
  · next heq => exact absurd (Option.some.inj heq) hdot
  · rfl

theorem bracketed_head {ss : List Selector} {t : List Char} (h : Bracketed mode condition ss t) :
    ∃ tail, t = '[' :: tail := by
  cases h
  exact ⟨_, rfl⟩

theorem dotted_head {ss : List Selector} {t : List Char} (h : Dotted mode ss t) :
    ∃ c tail, t = c :: tail ∧ c ≠ '.' := by
  cases h with
  | wildcard => exact ⟨'*', [], rfl, by decide⟩
  | name h =>
    obtain ⟨c, tail, hname, hc, -⟩ := (shorthand_iff _).mp h
    refine ⟨c, tail, hname, ?_⟩
    rintro rfl
    revert hc
    decide

theorem segment_run (hinner : ReadsItems inner.expression condition) {s : Segment}
    {b t rest : List Char} (hb : Blanks b) (h : OfSegment mode condition s t)
    (hrest : EndsName mode rest) :
    (segment mode inner).run (b ++ (t ++ rest)) = .ok (s, rest) := by
  rw [segment_blanks, dropWhile_blanks hb]
  cases h with
  | bracket h =>
    have hrun := bracketed_run hinner h rest
    obtain ⟨tail, rfl⟩ := bracketed_head h
    rw [List.cons_append] at hrun ⊢
    rw [dropWhile_nonblank (by decide), segment_other (by decide) (by decide)]
    exact run_map_eq_ok.mpr ⟨_, hrun, rfl⟩
  | dot h =>
    have hrun : (dotted mode inner false).run (_ ++ rest) = _ := dotted_run h hrest false
    obtain ⟨c, tail, rfl, hc⟩ := dotted_head h
    rw [List.cons_append, dropWhile_nonblank (by decide), segment_dot (by simpa using hc)]
    exact run_map_eq_ok.mpr ⟨_, hrun, rfl⟩
  | dotsBracket h =>
    have hrun := bracketed_run hinner h rest
    obtain ⟨tail, rfl⟩ := bracketed_head h
    rw [List.cons_append, List.cons_append, dropWhile_nonblank (by decide), segment_dots]
    exact run_map_eq_ok.mpr ⟨_, hrun, rfl⟩
  | dots h =>
    rw [List.cons_append, List.cons_append, dropWhile_nonblank (by decide), segment_dots]
    exact run_map_eq_ok.mpr ⟨_, dotted_run h hrest true, rfl⟩

theorem segment_sound (hinner : Recognises inner.expression condition) {s : Segment}
    {input rest : List Char} (h : (segment mode inner).run input = .ok (s, rest)) :
    ∃ b t, Blanks b ∧ input = b ++ (t ++ rest) ∧ OfSegment mode condition s t := by
  obtain ⟨b, hb, hinput⟩ := exists_blanks input
  rw [segment_blanks] at h
  cases htext : input.dropWhile isBlank with
  | nil =>
    rw [htext] at h
    cases h
  | cons c text =>
    rw [hinput, htext]
    rw [htext] at h
    by_cases hdot : c = '.'
    · subst hdot
      by_cases hdots : text.head? = some '.'
      · obtain ⟨text, rfl⟩ := List.head?_eq_some_iff.mp hdots
        rw [segment_dots] at h
        obtain ⟨ss, hss, rfl⟩ := run_map_eq_ok.mp h
        obtain ⟨t, rfl, ht | ⟨-, ht⟩⟩ := dotted_sound hinner hss
        · exact ⟨b, _, hb, rfl, .dots ht⟩
        · exact ⟨b, _, hb, rfl, .dotsBracket ht⟩
      · rw [segment_dot hdots] at h
        obtain ⟨ss, hss, rfl⟩ := run_map_eq_ok.mp h
        obtain ⟨t, rfl, ht | ⟨⟨⟩, -⟩⟩ := dotted_sound hinner hss
        exact ⟨b, _, hb, rfl, .dot ht⟩
    · have hblank : isBlank c = false := head_dropWhile (by rw [htext]; rfl)
      rw [segment_other hblank hdot] at h
      obtain ⟨ss, hss, rfl⟩ := run_map_eq_ok.mp h
      obtain ⟨t, ht, hspelt⟩ := bracketed_sound hinner hss
      exact ⟨b, t, hb, by rw [ht], .bracket hspelt⟩

structure EndsSegments (mode : Mode) (rest : List Char) : Prop where
  name : EndsName mode rest
  segment : segmentFollows rest = false

theorem ofSegment_head {s : Segment} {t : List Char} (h : OfSegment mode condition s t) :
    ∃ c tail, t = c :: tail ∧ (c = '.' ∨ c = '[') := by
  cases h with
  | bracket h =>
    obtain ⟨tail, rfl⟩ := bracketed_head h
    exact ⟨'[', tail, rfl, .inr rfl⟩
  | _ => exact ⟨'.', _, rfl, .inl rfl⟩

theorem segmentFollows_run {s : Segment} {b t : List Char} (hb : Blanks b)
    (h : OfSegment mode condition s t) (rest : List Char) :
    segmentFollows (b ++ (t ++ rest)) = true := by
  obtain ⟨c, tail, rfl, hc⟩ := ofSegment_head h
  rw [segmentFollows, dropWhile_blanks hb]
  rcases hc with rfl | rfl <;> rfl

theorem endsName_of_head {c : Char} (h : isBlank c = true ∨ c = '.' ∨ c = '[')
    (rest : List Char) : EndsName mode (c :: rest) := by
  have hc : c ∈ [' ', '\t', '\n', '\r', '.', '['] := by
    rw [isBlank_iff] at h
    simpa [or_assoc] using h
  have hall : [' ', '\t', '\n', '\r', '.', '['].all
      (fun c => !Name.isLater c && c != '-') = true := by
    decide
  have hnot : Name.isLater c = false ∧ c ≠ '-' := by simpa using List.all_eq_true.mp hall c hc
  rintro d ⟨⟩ hname
  simp [hnot] at hname

theorem endsName_segment {s : Segment} {b t : List Char} (hb : Blanks b)
    (h : OfSegment mode condition s t) (rest : List Char) : EndsName mode (b ++ (t ++ rest)) := by
  obtain ⟨c, tail, rfl, hc⟩ := ofSegment_head h
  cases b with
  | nil => exact endsName_of_head (.inr hc) _
  | cons d b => exact endsName_of_head (.inl ((isBlank_iff d).mpr (hb d List.mem_cons_self))) _

theorem segments_run (hinner : ReadsItems inner.expression condition) {ss : List Segment}
    {t rest : List Char} (h : OfSegments mode condition ss t) (hrest : EndsSegments mode rest) :
    (segments mode inner).run (t ++ rest) = .ok (ss, rest) := by
  change manyRun segmentFollows (segment mode inner) (strict_segment mode inner) _ = _
  induction h with
  | nil => exact manyRun_stop hrest.segment
  | @cons s ss b t ts hb h hs ih =>
    -- a name that ends this segment is not read into the next one
    have hname : EndsName mode (ts ++ rest) := by
      cases hs with
      | nil => exact hrest.name
      | cons hb h hs =>
        rw [List.append_assoc, List.append_assoc]
        exact endsName_segment hb h _
    rw [List.append_assoc, List.append_assoc]
    exact manyRun_step (segmentFollows_run hb h _) (segment_run hinner hb h hname) ih

theorem segments_sound (hinner : Recognises inner.expression condition) :
    Recognises (segments mode inner) (OfSegments mode condition) := by
  intro ss input rest h
  refine manyRun_induction (motive := fun input ss =>
    ∃ t, input = t ++ rest ∧ OfSegments mode condition ss t) ?_ ?_ h
  · exact fun _ => ⟨[], rfl, .nil⟩
  · rintro input s _ ss - hs ⟨ts, rfl, hts⟩
    obtain ⟨b, t, hb, rfl, ht⟩ := segment_sound hinner hs
    exact ⟨b ++ (t ++ ts), by simp, .cons hb ht hts⟩

theorem endsSegments_blanks {b : List Char} (hb : Blanks b) : EndsSegments mode b where
  name c hc := by
    obtain ⟨tail, rfl⟩ := List.head?_eq_some_iff.mp hc
    exact endsName_of_head (.inl ((isBlank_iff c).mpr (hb c List.mem_cons_self))) tail c rfl
  segment := by
    have hnil := dropWhile_blanks hb []
    rw [List.append_nil] at hnil
    rw [segmentFollows, hnil]
    rfl

theorem lenientBlanks_run {b rest : List Char} (hb : Blanks b) (bare : mode = .strict → b = [])
    (hrest : ∀ c ∈ rest.head?, isBlank c = false) :
    (lenientBlanks mode).run (b ++ rest) = .ok ((), rest) := by
  cases mode with
  | strict =>
    rw [bare rfl]
    rfl
  | lenient =>
    change blanks.run (b ++ rest) = _
    rw [run_blanks, dropWhile_blanks hb, dropWhile_of_head hrest]

theorem lenientBlanks_sound {input rest : List Char} {u : Unit}
    (h : (lenientBlanks mode).run input = .ok (u, rest)) :
    ∃ b, Blanks b ∧ (mode = .strict → b = []) ∧ input = b ++ rest := by
  cases mode with
  | strict =>
    cases h
    exact ⟨[], blanks_nil, fun _ => rfl, rfl⟩
  | lenient =>
    change blanks.run input = _ at h
    rw [run_blanks] at h
    cases h
    obtain ⟨b, hb, hinput⟩ := exists_blanks input
    exact ⟨b, hb, (by simp), hinput⟩

theorem query_run (hinner : ReadsItems (nested mode maxNesting).expression condition) {p : Path}
    {text : List Char} (h : OfPath mode condition p text) :
    (query mode).run text = .ok (p, []) := by
  cases h with
  | @root segments b t b' hb hb' h bare =>
    have hstart : (lenientBlanks mode).run (b ++ '$' :: (t ++ b')) = .ok ((), '$' :: (t ++ b')) :=
      lenientBlanks_run hb (fun hm => (bare hm).1) (by rintro c ⟨⟩; decide)
    have hsegments := segments_run hinner h (endsSegments_blanks hb')
    have hend : (lenientBlanks mode).run (b' ++ []) = .ok ((), []) :=
      lenientBlanks_run hb' (fun hm => (bare hm).2) (by rintro c ⟨⟩)
    rw [List.append_nil] at hend
    rw [query, run_bind_ok hstart, run_bind_ok (run_accept_self '$' _)]
    change (Grammar.segments mode (nested mode maxNesting) >>= _).run _ = _
    rw [run_bind_ok hsegments, run_bind_ok hend]
    rfl

theorem query_sound (hinner : Recognises (nested mode maxNesting).expression condition) {p : Path}
    {text rest : List Char} (h : (query mode).run text = .ok (p, rest)) :
    OfPath mode condition p text := by
  rw [query, run_bind_eq_ok] at h
  obtain ⟨_, r, hstart, h⟩ := h
  obtain ⟨b, hb, bare, rfl⟩ := lenientBlanks_sound hstart
  rw [run_bind_eq_ok] at h
  obtain ⟨dollar, r', haccept, h⟩ := h
  rcases run_accept_eq_ok.mp haccept with ⟨rfl, rfl⟩ | ⟨rfl, -, rfl⟩
  · rw [if_pos rfl, run_bind_eq_ok] at h
    obtain ⟨ss, r'', hsegments, h⟩ := h
    obtain ⟨t, rfl, ht⟩ := segments_sound hinner hsegments
    rw [run_bind_eq_ok] at h
    obtain ⟨_, r3, hend, h⟩ := h
    obtain ⟨b', hb', bare', rfl⟩ := lenientBlanks_sound hend
    rw [run_bind_ok (run_remaining _)] at h
    split at h
    · cases h
      rw [List.append_nil]
      exact .root hb hb' ht fun hm => ⟨bare hm, bare' hm⟩
    · cases h
  · cases h

theorem parse_eq_ok_iff {text : String} {p : Path} :
    Path.parse text mode = .ok p ↔ ∃ rest, (query mode).run text.toList = .ok (p, rest) := by
  rw [Path.parse, Reader.parse]
  split
  · next heq =>
    simp [heq]
  · next heq =>
    simp [heq]

end JsonPath.Grammar
