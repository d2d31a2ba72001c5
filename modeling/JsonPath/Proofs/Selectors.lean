import JsonPath.Grammar
import JsonPath.Proofs.CommaList
import JsonPath.Proofs.Numeral
import JsonPath.Proofs.Quoted
import Mathlib.Data.List.DropRight

set_option autoImplicit false

/-!
# Selectors

The reader of selectors reads their spellings and nothing else. Of the reader of conditions, which
belongs to filters, only what it reads is assumed.
-/
namespace JsonPath.Grammar
open Reader Spelling

theorem ofIndex_head {mode : Mode} {i : Int} {t : List Char} (h : OfIndex mode i t) :
    ∃ c tail, t = c :: tail ∧ (c = '-' ∨ c.isDigit = true) := by
  cases h with
  | @decimal negative ds nonempty hds _ _ _ =>
    obtain ⟨d, tail, rfl⟩ := List.exists_cons_of_ne_nil nonempty
    cases negative with
    | true => exact ⟨'-', d :: tail, rfl, .inl rfl⟩
    | false => exact ⟨d, tail, rfl, .inr (hds d List.mem_cons_self)⟩

theorem isBlank_of_index {c : Char} (h : c = '-' ∨ c.isDigit = true) : isBlank c = false := by
  rw [Bool.eq_false_iff]
  intro hc
  rcases h with rfl | hd
  · revert hc
    decide
  · rcases (isBlank_iff c).mp hc with rfl | rfl | rfl | rfl <;> revert hd <;> decide

def NoIndex (rest : List Char) : Prop := ∀ c ∈ rest.head?, ¬ (c = '-' ∨ c.isDigit = true)

theorem startsIndex_iff (c : Char) (rest : List Char) :
    startsIndex (c :: rest) = true ↔ c = '-' ∨ c.isDigit = true := by
  simp [startsIndex]

theorem optionalIndex_run {mode : Mode} {bound : Option Int} {t rest : List Char}
    (h : OfBound mode bound t) (hrest : NoIndex rest) :
    (optionalIndex mode).run (t ++ rest) = .ok (bound, rest) := by
  rw [optionalIndex, run_bind_ok (run_remaining _)]
  cases h with
  | absent =>
    rw [List.nil_append]
    have hstarts : ¬ startsIndex rest = true := by
      cases rest with
      | nil => simp [startsIndex]
      | cons c tail => exact fun hc => hrest c rfl ((startsIndex_iff c tail).mp hc)
    rw [if_neg hstarts, run_pure]
  | present hi =>
    have hdigit : ∀ c ∈ rest.head?, c.isDigit = false := fun c hc => by
      simpa using fun hd => hrest c hc (.inr hd)
    have hrun := index_run hi hdigit
    obtain ⟨c, tail, rfl, hc⟩ := ofIndex_head hi
    rw [List.cons_append] at hrun ⊢
    rw [if_pos ((startsIndex_iff c _).mpr hc), run_map_eq_ok]
    exact ⟨_, hrun, rfl⟩

theorem optionalIndex_sound (mode : Mode) : Recognises (optionalIndex mode) (OfBound mode) := by
  intro bound input rest h
  rw [optionalIndex, run_bind_ok (run_remaining _)] at h
  split at h
  · obtain ⟨i, hi, rfl⟩ := run_map_eq_ok.mp h
    obtain ⟨⟨t, rfl, ht⟩, -⟩ := index_sound hi
    exact ⟨t, rfl, .present ht⟩
  · cases h
    exact ⟨[], rfl, .absent⟩

theorem colon_eq_ok_iff {input rest : List Char} {u : Unit} :
    colon.run input = .ok (u, rest) ↔
      ∃ tail, input.dropWhile isBlank = ':' :: tail ∧ rest = tail.dropWhile isBlank := by
  simp only [colon, run_bind_eq_ok, run_blanks, run_expect_eq_ok, Except.ok.injEq, Prod.mk.injEq]
  constructor
  · rintro ⟨_, _, ⟨-, rfl⟩, _, tail, htail, -, rfl⟩
    exact ⟨tail, htail, rfl⟩
  · rintro ⟨tail, htail, rfl⟩
    exact ⟨(), _, ⟨trivial, rfl⟩, (), tail, htail, trivial, rfl⟩

theorem colonFollows_iff (input : List Char) :
    colonFollows input = true ↔ ∃ tail, input.dropWhile isBlank = ':' :: tail := by
  simp [colonFollows, List.head?_eq_some_iff]

def EndsBound (rest : List Char) : Prop :=
  ∃ c tail, rest.dropWhile isBlank = c :: tail ∧ (c = ':' ∨ c = ',' ∨ c = ']' ∨ c = ')')

theorem endsBound_colon {b : List Char} (hb : Blanks b) (rest : List Char) :
    EndsBound (b ++ ':' :: rest) :=
  ⟨':', rest, dropWhile_blanks_cons hb (by decide) rest, .inl rfl⟩

theorem endsBound_of_endsItem {rest : List Char} (h : EndsItem rest) : EndsBound rest := by
  obtain ⟨c, tail, hrest, hc⟩ := h
  exact ⟨c, tail, hrest, .inr hc⟩

theorem noIndex_dropWhile {rest : List Char} (h : EndsBound rest) :
    NoIndex (rest.dropWhile isBlank) := by
  obtain ⟨c, tail, hrest, hc⟩ := h
  rw [hrest]
  rintro d ⟨⟩
  rcases hc with rfl | rfl | rfl | rfl <;> decide

theorem noIndex_of_endsBound {rest : List Char} (h : EndsBound rest) : NoIndex rest := by
  intro c hc hindex
  obtain ⟨tail, rfl⟩ := List.head?_eq_some_iff.mp hc
  have hnot := noIndex_dropWhile h
  rw [dropWhile_nonblank (isBlank_of_index hindex)] at hnot
  exact hnot c rfl hindex

theorem bound_run {mode : Mode} {bound : Option Int} {t rest : List Char}
    (h : OfBound mode bound t) (hrest : EndsBound rest) :
    ∃ rest', (optionalIndex mode).run ((t ++ rest).dropWhile isBlank) = .ok (bound, rest') ∧
      rest'.dropWhile isBlank = rest.dropWhile isBlank := by
  cases h with
  | absent =>
    have hrun := optionalIndex_run (.absent : OfBound mode none []) (noIndex_dropWhile hrest)
    exact ⟨_, hrun, List.dropWhile_idempotent ..⟩
  | present hi =>
    have hrun := optionalIndex_run (.present hi) (noIndex_of_endsBound hrest)
    obtain ⟨c, tail, rfl, hc⟩ := ofIndex_head hi
    rw [List.cons_append, dropWhile_nonblank (isBlank_of_index hc)]
    exact ⟨rest, hrun, rfl⟩

theorem colonFollows_of_endsItem {input rest : List Char}
    (hsame : input.dropWhile isBlank = rest.dropWhile isBlank) (hrest : EndsItem rest) :
    ¬ colonFollows input = true := by
  rw [colonFollows_iff, hsame]
  rintro ⟨tail, htail⟩
  obtain ⟨c, tail', hc, hend⟩ := hrest
  rw [htail] at hc
  cases hc
  revert hend
  decide

theorem index_item_run {mode : Mode} {i : Int} {t rest : List Char} (h : OfIndex mode i t)
    (hrest : EndsItem rest) :
    ∃ rest', (indexOrSlice mode).run ((t ++ rest).dropWhile isBlank) = .ok (.index i, rest') ∧
      rest'.dropWhile isBlank = rest.dropWhile isBlank := by
  obtain ⟨rest', hrun, hsame⟩ := bound_run (.present h) (endsBound_of_endsItem hrest)
  refine ⟨rest', ?_, hsame⟩
  rw [indexOrSlice, run_bind_ok hrun, run_bind_ok (run_remaining _),
    if_neg (colonFollows_of_endsItem hsame hrest)]
  rfl

theorem slice_item_run {mode : Mode} {start stop step : Option Int}
    {t t' t'' b b' rest : List Char} (ht : OfBound mode start t) (hb : Blanks b)
    (hb' : Blanks b') (ht' : OfBound mode stop t') (ht'' : OfStep mode step t'')
    (hrest : EndsItem rest) :
    ∃ rest', (indexOrSlice mode).run
        ((t ++ (b ++ ':' :: (b' ++ (t' ++ (t'' ++ rest))))).dropWhile isBlank) =
          .ok (.slice start stop step, rest') ∧
      rest'.dropWhile isBlank = rest.dropWhile isBlank := by
  obtain ⟨r, hstart, hsame⟩ := bound_run ht (endsBound_colon hb (b' ++ (t' ++ (t'' ++ rest))))
  rw [dropWhile_blanks_cons hb (by decide)] at hsame
  have hcolon : colon.run r = .ok ((), (t' ++ (t'' ++ rest)).dropWhile isBlank) :=
    colon_eq_ok_iff.mpr ⟨_, hsame, (dropWhile_blanks hb' _).symm⟩
  rw [indexOrSlice, run_bind_ok hstart, run_bind_ok (run_remaining _),
    if_pos ((colonFollows_iff r).mpr ⟨_, hsame⟩), run_bind_ok hcolon]
  cases ht'' with
  | absent =>
    obtain ⟨r', hstop, hsame'⟩ := bound_run ht' (endsBound_of_endsItem hrest)
    refine ⟨r', ?_, hsame'⟩
    rw [List.nil_append, run_bind_ok hstop, run_bind_ok (run_remaining _),
      if_neg (colonFollows_of_endsItem hsame' hrest)]
    rfl
  | @colon _ c c' t'' hc hc' ht'' =>
    obtain ⟨r', hstop, hsame'⟩ := bound_run ht' (endsBound_colon hc (c' ++ (t'' ++ rest)))
    rw [dropWhile_blanks_cons hc (by decide)] at hsame'
    have hcolon' : colon.run r' = .ok ((), (t'' ++ rest).dropWhile isBlank) :=
      colon_eq_ok_iff.mpr ⟨_, hsame', (dropWhile_blanks hc' _).symm⟩
    obtain ⟨r'', hstep, hsame''⟩ := bound_run ht'' (endsBound_of_endsItem hrest)
    refine ⟨r'', ?_, hsame''⟩
    have hsplit : c ++ ':' :: (c' ++ t'') ++ rest = c ++ ':' :: (c' ++ (t'' ++ rest)) := by simp
    rw [hsplit, run_bind_ok hstop, run_bind_ok (run_remaining _),
      if_pos ((colonFollows_iff r').mpr ⟨_, hsame'⟩), run_bind_ok hcolon', run_map_eq_ok]
    exact ⟨_, hstep, rfl⟩

theorem slice_head {mode : Mode} {start : Option Int} {t b : List Char}
    (ht : OfBound mode start t) (hb : Blanks b) (rest : List Char) :
    ∃ c tail, (t ++ (b ++ ':' :: rest)).dropWhile isBlank = c :: tail ∧
      (c = '-' ∨ c = ':' ∨ c.isDigit = true) := by
  cases ht with
  | absent =>
    exact ⟨':', rest, dropWhile_blanks_cons hb (by decide) rest, .inr (.inl rfl)⟩
  | present hi =>
    obtain ⟨c, tail, rfl, hc⟩ := ofIndex_head hi
    refine ⟨c, tail ++ (b ++ ':' :: rest), dropWhile_nonblank (isBlank_of_index hc) _, ?_⟩
    exact hc.imp id .inr

theorem colon_sound {input rest : List Char} {u : Unit} (h : colon.run input = .ok (u, rest)) :
    ∃ b b', Blanks b ∧ Blanks b' ∧ input = b ++ ':' :: (b' ++ rest) := by
  obtain ⟨tail, htail, rfl⟩ := colon_eq_ok_iff.mp h
  obtain ⟨b, hb, hinput⟩ := exists_blanks input
  obtain ⟨b', hb', htail'⟩ := exists_blanks tail
  exact ⟨b, b', hb, hb', by rw [← htail', ← htail, ← hinput]⟩

theorem indexOrSlice_sound (mode : Mode) (condition : Expr → List Char → Prop) :
    Recognises (indexOrSlice mode) (OfSelector mode condition) := by
  intro selector input rest h
  rw [indexOrSlice, run_bind_eq_ok] at h
  obtain ⟨start, r, hstart, h⟩ := h
  obtain ⟨t, rfl, ht⟩ := optionalIndex_sound mode hstart
  rw [run_bind_ok (run_remaining _), run_ite] at h
  split at h
  · rw [run_bind_eq_ok] at h
    obtain ⟨_, r', hcolon, h⟩ := h
    obtain ⟨b, b', hb, hb', rfl⟩ := colon_sound hcolon
    rw [run_bind_eq_ok] at h
    obtain ⟨stop, r'', hstop, h⟩ := h
    obtain ⟨t', rfl, ht'⟩ := optionalIndex_sound mode hstop
    rw [run_bind_ok (run_remaining _), run_ite] at h
    split at h
    · rw [run_bind_eq_ok] at h
      obtain ⟨_, r3, hcolon', h⟩ := h
      obtain ⟨c, c', hc, hc', rfl⟩ := colon_sound hcolon'
      obtain ⟨step, hstep, rfl⟩ := run_map_eq_ok.mp h
      obtain ⟨t'', rfl, ht''⟩ := optionalIndex_sound mode hstep
      exact ⟨_, by simp, .slice ht hb hb' ht' (.colon hc hc' ht'')⟩
    · cases h
      exact ⟨_, by simp, .slice ht hb hb' ht' .absent⟩
  · cases start with
    | none => cases h
    | some i =>
      cases h
      cases ht with
      | present hi => exact ⟨t, rfl, .index hi⟩

section
variable {mode : Mode} {inner : Nested} {condition : Expr → List Char → Prop}

theorem selector_filter (input : List Char) :
    (selector mode inner).run ('?' :: input) =
      (Selector.filter <$> inner.expression).run (input.dropWhile isBlank) := rfl

theorem selector_quote {quote : Char} (hq : quote = '\'' ∨ quote = '"') (input : List Char) :
    (selector mode inner).run (quote :: input) =
      (Selector.member <$> stringLiteral mode).run (quote :: input) := by
  rcases hq with rfl | rfl <;> rfl

theorem selector_index {c : Char} (hc : c = '-' ∨ c = ':' ∨ c.isDigit = true)
    (input : List Char) :
    (selector mode inner).run (c :: input) = (indexOrSlice mode).run (c :: input) := by
  rcases hc with rfl | rfl | hd
  · rfl
  · rfl
  · rw [selector, run_bind_ok (run_peek _)]
    have hquote : ¬ (c = '\'' || c = '"') = true := by
      simp only [Bool.or_eq_true, decide_eq_true_eq, not_or]
      exact ⟨digit_ne hd (by decide), digit_ne hd (by decide)⟩
    split
    · next heq => exact absurd (Option.some.inj heq) (digit_ne hd (by decide))
    · next heq => exact absurd (Option.some.inj heq) (digit_ne hd (by decide))
    · next heq =>
      cases heq
      rw [if_neg hquote, if_pos (by simp [hd])]
    · next heq => cases heq

theorem selector_run (hinner : ReadsItems inner.expression condition) :
    ReadsItems (selector mode inner) (OfSelector mode condition) := by
  intro s t rest h hrest
  cases h with
  | wildcard => exact ⟨rest, rfl, rfl⟩
  | member h =>
    have hrun := stringLiteral_run h rest
    cases h with
    | @quoted t quote hq ht =>
      have hblank : isBlank quote = false := by
        rcases hq with rfl | rfl <;> rfl
      rw [List.cons_append] at hrun ⊢
      rw [dropWhile_nonblank hblank, selector_quote hq]
      exact ⟨rest, run_map_eq_ok.mpr ⟨_, hrun, rfl⟩, rfl⟩
  | index h =>
    have hrun := index_item_run h hrest
    obtain ⟨c, tail, rfl, hc⟩ := ofIndex_head h
    rw [List.cons_append, dropWhile_nonblank (isBlank_of_index hc)] at hrun ⊢
    rw [selector_index (hc.imp id .inr)]
    exact hrun
  | slice ht hb hb' ht' ht'' =>
    have hrun := slice_item_run ht hb hb' ht' ht'' hrest
    simp only [List.append_assoc, List.cons_append]
    obtain ⟨c, tail, hhead, hc⟩ := slice_head ht hb (_ ++ (_ ++ (_ ++ rest)))
    rw [hhead] at hrun ⊢
    rw [selector_index hc]
    exact hrun
  | @filter e b t hb h =>
    obtain ⟨rest', hrun, hsame⟩ := hinner h hrest
    refine ⟨rest', ?_, hsame⟩
    rw [List.cons_append, dropWhile_nonblank (by decide), selector_filter, List.append_assoc,
      dropWhile_blanks hb]
    exact run_map_eq_ok.mpr ⟨_, hrun, rfl⟩

theorem selector_sound (hinner : Recognises inner.expression condition) :
    Recognises (selector mode inner) (OfSelector mode condition) := by
  intro s input rest h
  cases input with
  | nil => cases h
  | cons c input =>
    by_cases hstar : c = '*'
    · subst hstar
      cases h
      exact ⟨['*'], rfl, .wildcard⟩
    by_cases hfilter : c = '?'
    · subst hfilter
      rw [selector_filter] at h
      obtain ⟨e, he, rfl⟩ := run_map_eq_ok.mp h
      obtain ⟨t, ht, hspelt⟩ := hinner he
      obtain ⟨b, hb, hinput⟩ := exists_blanks input
      refine ⟨'?' :: (b ++ t), ?_, .filter hb hspelt⟩
      rw [List.cons_append, List.append_assoc, ← ht, ← hinput]
    by_cases hquote : c = '\'' ∨ c = '"'
    · rw [selector_quote hquote] at h
      obtain ⟨name, hname, rfl⟩ := run_map_eq_ok.mp h
      obtain ⟨t, ht, hspelt⟩ := stringLiteral_sound hquote hname
      exact ⟨t, ht, .member hspelt⟩
    by_cases hindex : c = '-' ∨ c = ':' ∨ c.isDigit = true
    · rw [selector_index hindex] at h
      exact indexOrSlice_sound mode condition h
    · rw [selector, run_bind_ok (run_peek _)] at h
      simp only [not_or] at hquote hindex
      simp [hquote, hindex] at h

end
end JsonPath.Grammar
