import JsonPath.Pattern.Engine
import JsonPath.Proofs.Locality
import JsonPath.Proofs.PatternReading
import JsonPath.Proofs.SpeltDots

set_option autoImplicit false

/-!
# Dots in classes

What is read of a pattern up to an element never ends with a backslash that escapes something, so
the bracket that begins a class is not escaped. Whether a dot in a class is spelt out is therefore
decided by the class alone: it is if the last bracket before it in the class is a closing one.
-/
namespace JsonPath

namespace Pattern
open Reader

variable {α β : Type}

/-- What is read does not end with a backslash, unless it is all that was left. -/
def EndsPlain (p : PatternReader α) : Prop :=
  ∀ ⦃t rest : List Char⦄ ⦃a : α⦄, p.run (t ++ rest) = .ok (a, rest) → rest ≠ [] →
    t.getLast? ≠ some '\\'

theorem last_append {t₁ t₂ : List Char} {c : Char} (h : (t₁ ++ t₂).getLast? = some c) :
    t₂ = [] ∧ t₁.getLast? = some c ∨ t₂.getLast? = some c := by
  rcases t₂.eq_nil_or_concat with rfl | ⟨init, d, rfl⟩
  · exact .inl ⟨rfl, by simpa using h⟩
  · rw [List.concat_eq_append, ← List.append_assoc] at h
    exact .inr (by simpa using h)

theorem EndsPlain.of_idle {p : PatternReader α} (h : Idle p) : EndsPlain p := by
  intro t rest a hrun _
  obtain rfl : t = [] := by simpa using h.rest_eq hrun
  simp

theorem EndsPlain.bind {p : PatternReader α} {f : α → PatternReader β} (hp : EndsPlain p)
    (hf : ∀ a, EndsPlain (f a)) : EndsPlain (p >>= f) := by
  intro t rest b h hrest hlast
  obtain ⟨t₁, t₂, a, rfl, ha, hb⟩ := run_bind_split h
  rcases last_append hlast with ⟨rfl, hlast'⟩ | hlast'
  · exact hp ha hrest hlast'
  · exact hf a hb hrest hlast'

theorem EndsPlain.after {p : PatternReader α} {f : α → PatternReader β}
    (strict : ∀ a, (f a).Strict) (hf : ∀ a, EndsPlain (f a)) : EndsPlain (p >>= f) := by
  intro t rest b h hrest hlast
  obtain ⟨t₁, t₂, a, rfl, -, hb⟩ := run_bind_split h
  rcases last_append hlast with ⟨rfl, -⟩ | hlast'
  · exact absurd (strict a hb) (Nat.lt_irrefl _)
  · exact hf a hb hrest hlast'

theorem EndsPlain.map {p : PatternReader α} (hp : EndsPlain p) (f : α → β) : EndsPlain (f <$> p) :=
  hp.bind fun a => .of_idle (pure_idle (f a))

theorem EndsPlain.ite {c : Prop} [Decidable c] {p q : PatternReader α} (hp : EndsPlain p)
    (hq : EndsPlain q) : EndsPlain (if c then p else q) := by
  split
  · exact hp
  · exact hq

theorem EndsPlain.remaining {f : List Char → PatternReader α}
    (hf : ∀ input, EndsPlain (f input)) : EndsPlain (remaining >>= f) := by
  intro t rest a h
  exact hf _ (by rwa [run_bind_ok (run_remaining _)] at h)

theorem EndsPlain.peek {f : Option Char → PatternReader α} (hf : ∀ next, EndsPlain (f next)) :
    EndsPlain (peek >>= f) := by
  intro t rest a h
  exact hf _ (by rwa [run_bind_ok (run_peek _)] at h)

/-- No gap ends with a backslash: outside a comment it ends the gap, and inside it does not end the
comment. -/
theorem dropGaps_backslash_ne {inComment : Bool} {rest : List Char} (hrest : rest ≠ [])
    (t : List Char) : dropGaps inComment (t ++ '\\' :: rest) ≠ rest := by
  induction t generalizing inComment with
  | nil =>
    rw [List.nil_append, dropGaps]
    split
    · exact fun h => Nat.ne_of_lt (length_dropGaps_comment hrest) (congrArg List.length h)
    · rw [if_neg (by decide), if_neg (by decide)]
      simp
  | cons c t ih =>
    rw [List.cons_append, dropGaps]
    split
    · exact ih
    · split
      · exact ih
      · split
        · exact ih
        · intro h
          have hlength := congrArg List.length h
          simp only [List.length_cons, List.length_append] at hlength
          omega

theorem gaps_endsPlain (flags : Flags) : EndsPlain (gaps flags) := by
  intro t rest a h hrest
  obtain ⟨-, hgap⟩ := Prod.mk.inj (Except.ok.inj h)
  split at hgap
  · intro hlast
    obtain ⟨init, rfl⟩ := List.getLast?_eq_some_iff.mp hlast
    rw [List.append_assoc] at hgap
    exact dropGaps_backslash_ne hrest init hgap
  · obtain rfl : t = [] := by simpa using hgap
    simp

theorem accept_endsPlain {c : Char} (hc : c ≠ '\\') :
    EndsPlain (accept c : PatternReader Bool) := by
  intro t rest b h _
  rcases run_accept_eq_ok.mp h with ⟨-, ht⟩ | ⟨-, -, ht⟩
  · obtain rfl : t = [c] := List.append_cancel_right ht
    simpa using hc
  · obtain rfl : t = [] := by simpa using ht.symm
    simp

theorem expectChar_endsPlain {c : Char} (hc : c ≠ '\\') : EndsPlain (expectChar c) := by
  intro t rest u h _
  obtain rfl : t = [c] := List.append_cancel_right (run_expectChar_eq_ok.mp h)
  simpa using hc

theorem spacedUntil_endsPlain (flags : Flags) {stop : Char} (hstop : stop ≠ '\\') :
    EndsPlain (spacedUntil flags stop) := by
  refine .after (fun cs => (strict_expectChar stop).bind_left _) fun cs => ?_
  exact (expectChar_endsPlain hstop).bind fun _ => .of_idle (pure_idle cs)

theorem spaced_last {flags : Flags} {t rest : List Char} {c : Char}
    (h : (spaced flags).run (t ++ rest) = .ok (c, rest)) (hrest : rest ≠ [])
    (hlast : t.getLast? = some '\\') : c = '\\' := by
  obtain ⟨t₁, t₂, d, rfl, hd, h⟩ := run_bind_split h
  obtain ⟨u, between, hgap, hpure⟩ := run_bind_eq_ok.mp h
  cases hpure
  obtain rfl : t₁ = [c] := List.append_cancel_right (run_nextChar_eq_ok.mp hd)
  rcases last_append hlast with ⟨rfl, hlast'⟩ | hlast'
  · simpa using hlast'
  · exact absurd hlast' (gaps_endsPlain flags hgap hrest)

theorem spacedTimes_last {flags : Flags} {n : Nat} {t rest cs : List Char}
    (h : (spacedTimes flags n).run (t ++ rest) = .ok (cs, rest)) (hrest : rest ≠ [])
    (hlast : t.getLast? = some '\\') : '\\' ∈ cs := by
  induction n generalizing t cs with
  | zero =>
    obtain rfl : t = [] := by simpa using (Prod.mk.inj (Except.ok.inj h)).2
    simp at hlast
  | succ n ih =>
    obtain ⟨t₁, t₂, c, rfl, hc, h⟩ := run_bind_split h
    obtain ⟨cs', between, hcs, hpure⟩ := run_bind_eq_ok.mp h
    cases hpure
    rcases last_append hlast with ⟨rfl, hlast'⟩ | hlast'
    · rw [spaced_last hc hrest hlast']
      exact List.mem_cons_self
    · exact List.mem_cons_of_mem _ (ih hcs hlast')

theorem mapM_hexValue?_backslash {digits : List Char} (h : '\\' ∈ digits) :
    digits.mapM Digit.hexValue? = none := by
  induction digits with
  | nil => cases h
  | cons d digits ih =>
    rw [List.mapM_cons]
    rcases List.mem_cons.mp h with rfl | h
    · rfl
    · rw [ih h]
      cases Digit.hexValue? d <;> rfl

theorem charOfHex_backslash {digits input rest : List Char} {c : Char}
    (h : (charOfHex digits).run input = .ok (c, rest)) : '\\' ∉ digits := by
  intro hmem
  rw [charOfHex, mapM_hexValue?_backslash hmem] at h
  cases h

theorem hexadecimal_endsPlain (flags : Flags) (count : Nat) :
    EndsPlain (hexadecimal flags count) := by
  refine (gaps_endsPlain flags).bind fun _ => (accept_endsPlain (by decide)).bind fun braces => ?_
  refine .ite ?_ ?_
  · refine (gaps_endsPlain flags).bind fun _ => ?_
    exact (spacedUntil_endsPlain flags (by decide)).bind fun _ =>
      (gaps_endsPlain flags).bind fun _ => .of_idle (charOfHex_idle _)
  · intro t rest c h hrest hlast
    obtain ⟨t₁, t₂, digits, rfl, hdigits, hc⟩ := run_bind_split h
    obtain rfl : t₂ = [] := by simpa using (charOfHex_idle digits).rest_eq hc
    rw [List.append_nil] at hlast
    exact charOfHex_backslash hc (spacedTimes_last hdigits hrest hlast)

theorem property_endsPlain (flags : Flags) (negated : Bool) :
    EndsPlain (property flags negated) := by
  refine .ite ?_ (.of_idle invalid_idle)
  refine (gaps_endsPlain flags).bind fun _ => (accept_endsPlain (by decide)).bind fun braces => ?_
  refine .ite ?_ ?_
  · refine (gaps_endsPlain flags).bind fun _ => ?_
    exact (spacedUntil_endsPlain flags (by decide)).bind fun _ =>
      .of_idle (propertyNamed_idle _ _ _)
  · intro t rest s h hrest hlast
    obtain ⟨t₁, t₂, c, rfl, hc, hs⟩ := run_bind_split h
    by_cases hslash : c = '\\'
    · rw [if_pos hslash] at hs
      cases hs
    · rw [if_neg hslash] at hs
      obtain rfl : t₂ = [] := by simpa using (propertyNamed_idle _ _ _).rest_eq hs
      rw [List.append_nil] at hlast
      exact hslash (spaced_last hc hrest hlast)

theorem bracedBoundary_endsPlain (flags : Flags) : EndsPlain (bracedBoundary flags) := by
  refine .after (fun _ => Strict.bind_right _ fun _ => Strict.bind_right _ fun _ =>
    (strict_expectChar _).bind_left _) fun _ => ?_
  refine .after (fun _ => Strict.bind_right _ fun _ => (strict_expectChar _).bind_left _)
    fun _ => .after (fun _ => (strict_expectChar _).bind_left _) fun name => ?_
  exact (expectChar_endsPlain (by decide)).bind fun _ => .of_idle (boundaryNamed_idle flags name)

theorem boundary_endsPlain (flags : Flags) : EndsPlain (boundary flags) := by
  rw [boundary_eq]
  refine .remaining fun input => ?_
  split
  · split
    · exact .of_idle invalid_idle
    · exact .ite (bracedBoundary_endsPlain flags) (.of_idle (pure_idle _))
  · exact .of_idle (pure_idle _)

theorem nextChar_last {f : Char → PatternReader α} (hf : ∀ c, EndsPlain (f c))
    {t rest : List Char} {a : α} (h : (nextChar >>= f).run (t ++ rest) = .ok (a, rest))
    (hrest : rest ≠ []) (hlast : t.getLast? = some '\\') :
    t = ['\\'] ∧ (f '\\').run rest = .ok (a, rest) := by
  obtain ⟨t₁, t₂, c, rfl, hc, ha⟩ := run_bind_split h
  obtain rfl : t₁ = [c] := List.append_cancel_right (run_nextChar_eq_ok.mp hc)
  rcases last_append hlast with ⟨rfl, hlast'⟩ | hlast'
  · obtain rfl : c = '\\' := by simpa using hlast'
    exact ⟨rfl, ha⟩
  · exact absurd hlast' (hf c ha hrest)

theorem escaped_last {flags : Flags} {t rest : List Char} {a : Primitive}
    (h : (escaped flags).run (t ++ rest) = .ok (a, rest)) (hrest : rest ≠ [])
    (hlast : t.getLast? = some '\\') : t = ['\\'] := by
  refine (nextChar_last (fun c => ?_) h hrest hlast).1
  split
  case h_1 =>
    refine .remaining fun input => (hexadecimal_endsPlain flags 2).bind fun c => ?_
    exact .ite (.of_idle invalid_idle) (.of_idle (pure_idle _))
  case h_2 | h_3 => exact (hexadecimal_endsPlain flags _).map _
  case h_4 | h_5 => exact (property_endsPlain flags _).map _
  case h_7 | h_9 | h_11 => exact .of_idle ((negate_idle flags _ _).map _)
  case h_20 => exact (boundary_endsPlain flags).map _
  case h_24 => exact .of_idle (.ite (pure_idle _) invalid_idle)
  all_goals exact .of_idle (pure_idle _)

theorem openBracket_result {flags : Flags} {outer : Members} {frames : List ClassFrame}
    {st : ClassState} {input rest : List Char}
    (h : (openBracket flags outer frames).run input = .ok (st, rest)) : st.result = none := by
  simp only [openBracket, run_bind_eq_ok] at h
  obtain ⟨_, _, -, _, _, -, negated, _, -, h⟩ := h
  split at h
  · simp only [run_bind_eq_ok] at h
    obtain ⟨_, _, -, _, _, -, h⟩ := h
    cases h
    rfl
  · simp only [run_bind_eq_ok] at h
    obtain ⟨_, _, -, h⟩ := h
    cases h
    rfl

/-- Only a bracket that is closed ends a class. -/
theorem classStep_closes {flags : Flags} {st st' : ClassState} {input rest : List Char}
    (h : (classStep flags st).run input = .ok (st', rest)) (hbefore : st.result = none)
    (hafter : st'.result ≠ none) : ∃ t, input = t ++ ']' :: rest := by
  obtain ⟨_, between, hgap, h⟩ := run_bind_eq_ok.mp h
  rw [run_bind_ok (run_remaining _)] at h
  split at h
  · simp only [run_bind_eq_ok] at h
    obtain ⟨_, _, -, _, _, -, _, _, -, h⟩ := h
    cases h
    exact absurd hbefore hafter
  · exact absurd (openBracket_result h) hafter
  · next hhead =>
    obtain ⟨c, rest', hc, h⟩ := run_bind_eq_ok.mp h
    obtain rfl := run_nextChar_eq_ok.mp hc
    obtain rfl := (closeBracket_idle flags st).rest_eq h
    obtain rfl : c = ']' := by simpa using hhead
    obtain ⟨t, ht⟩ := (gaps flags).rest_suffix hgap
    exact ⟨t, ht.symm⟩
  · simp only [run_bind_eq_ok] at h
    obtain ⟨_, _, -, _, _, -, h⟩ := h
    cases h
    exact absurd rfl hafter
  · obtain ⟨_, _, -, h⟩ := run_bind_eq_ok.mp h
    cases h
    exact absurd hbefore hafter

theorem bracketClass_last {flags : Flags} {t rest : List Char} {term : ClassTerm}
    (h : (bracketClass flags).run (t ++ rest) = .ok (term, rest)) : t.getLast? = some ']' := by
  obtain ⟨st₀, between, hopen, h⟩ := run_bind_eq_ok.mp h
  obtain ⟨st, behind, hloop, h⟩ := run_bind_eq_ok.mp h
  cases hresult : st.result with
  | none =>
    rw [hresult] at h
    cases h
  | some term' =>
    rw [hresult] at h
    cases h
    rw [run_loop] at hloop
    rcases loopRun_last hloop with ⟨hstop, rfl, -⟩ | ⟨st₁, input₁, hsuffix, hgoes, hstep⟩
    · rw [openBracket_result hopen] at hstop
      cases hstop
    · obtain ⟨inside, rfl⟩ :=
        classStep_closes hstep (by simpa using hgoes) (by simp [hresult])
      obtain ⟨start, hstart⟩ := hsuffix.trans ((openBracket flags _ _).rest_suffix hopen)
      obtain rfl : t = start ++ inside ++ [']'] :=
        List.append_cancel_right (by rw [← hstart]; simp)
      simp

theorem bracketClass_head {flags : Flags} {input rest : List Char} {term : ClassTerm}
    (h : (bracketClass flags).run input = .ok (term, rest)) : input.head? = some '[' := by
  obtain ⟨st₀, between, hopen, -⟩ := run_bind_eq_ok.mp h
  obtain ⟨_, _, hbracket, -⟩ := run_bind_eq_ok.mp hopen
  rw [run_expectChar_eq_ok.mp hbracket]
  rfl

theorem namedGroup_endsPlain (st : GroupState) : EndsPlain (namedGroup st) := by
  refine .after (fun name => (strict_expectChar '>').bind_left _) fun name => ?_
  exact (expectChar_endsPlain (by decide)).bind fun _ => .of_idle (.ite (pure_idle _) invalid_idle)

theorem flagGroup_endsPlain (st : GroupState) : EndsPlain (flagGroup st) := by
  intro t rest st' h hrest hlast
  obtain ⟨t₁, t₂, items, rfl, hitems, h⟩ := run_bind_split h
  rcases last_append hlast with ⟨rfl, -⟩ | hlast'
  · exact absurd (strict_nextChar.bind_left _ h) (Nat.lt_irrefl _)
  · have hchecks := fun stop => EndsPlain.of_idle (setFlags_idle st items stop)
    obtain ⟨rfl, -⟩ := nextChar_last hchecks h hrest hlast'
    -- the flags go on up to another character
    have hstop := (Prod.mk.inj (Except.ok.inj hitems)).2
    have hslash := head_dropWhile (c := '\\') (by rw [hstop]; rfl)
    simp at hslash

theorem openGroup_endsPlain (st : GroupState) : EndsPlain (openGroup st) := by
  refine (gaps_endsPlain _).bind fun _ => .remaining fun input => ?_
  have hnamed (n : Nat) : EndsPlain (skip n >>= fun _ => namedGroup st) :=
    .after (fun _ => strict_namedGroup st) fun _ => namedGroup_endsPlain st
  split
  case h_5 | h_6 => exact hnamed _
  case h_7 => exact .after (fun _ => strict_flagGroup st) fun _ => flagGroup_endsPlain st
  case h_8 => exact .of_idle (pure_idle _)
  all_goals exact .of_idle invalid_idle

theorem uncounted_endsPlain (st : GroupState) (least : Nat) (most : Option Nat) :
    EndsPlain (uncounted st least most) :=
  (accept_endsPlain (by decide)).bind fun _ => .of_idle (repeatLast_idle st least most)

theorem closeCount_endsPlain (st : GroupState) (bounds : Option Nat × Option Nat) :
    EndsPlain (closeCount st bounds) := by
  refine (expectChar_endsPlain (by decide)).bind fun _ => (gaps_endsPlain _).bind fun _ => ?_
  refine (accept_endsPlain (by decide)).bind fun _ => .of_idle ?_
  split
  · exact repeatLast_idle st _ _
  · exact invalid_idle

theorem closeBetween_endsPlain (st : GroupState) (least most : Option Nat) :
    EndsPlain (closeBetween st least most) := by
  unfold closeBetween
  split
  · exact .ite (closeCount_endsPlain st _) (.of_idle invalid_idle)
  · exact .of_idle invalid_idle

theorem upperBound_endsPlain (st : GroupState) (least : Option Nat) :
    EndsPlain (upperBound st least) := by
  refine (gaps_endsPlain _).bind fun _ => .peek fun next => ?_
  refine .ite (closeCount_endsPlain st _) ?_
  exact .after (strict_closeBetween st least) (closeBetween_endsPlain st least)

theorem counted_endsPlain (st : GroupState) : EndsPlain (counted st) := by
  rw [counted_eq]
  refine (gaps_endsPlain _).bind fun _ => .after (fun least => ?_) fun least => ?_
  · refine Strict.bind_right _ fun comma => ?_
    split
    · exact strict_upperBound st least
    · exact strict_closeCount st _
  · refine (accept_endsPlain (by decide)).bind fun comma => ?_
    exact .ite (upperBound_endsPlain st least) (closeCount_endsPlain st _)

theorem element_endsPlain (st : GroupState) {c : Char} (hc : c ≠ '\\') :
    EndsPlain (element st c) := by
  unfold element
  split
  case h_1 => exact openGroup_endsPlain st
  case h_2 => exact .of_idle (leave_idle st)
  case h_4 | h_5 | h_6 => exact uncounted_endsPlain st _ _
  case h_7 => exact counted_endsPlain st
  case h_8 => exact absurd rfl hc
  case h_9 => exact .of_idle ((dot_idle _).map _)
  all_goals exact .of_idle (pure_idle _)

theorem addEscaped_last {st st' : GroupState} {t rest : List Char}
    (h : (addEscaped st).run (t ++ rest) = .ok (st', rest)) (hrest : rest ≠ [])
    (hlast : t.getLast? = some '\\') : t = ['\\'] := by
  obtain ⟨t₁, t₂, a, rfl, ha, h⟩ := run_bind_split h
  obtain rfl : t₂ = [] := by
    cases a <;> simpa using (pure_idle _).rest_eq h
  rw [List.append_nil] at hlast ⊢
  exact escaped_last ha hrest hlast

theorem readElement_last {st st' : GroupState} {t rest : List Char}
    (h : (readElement st).run (t ++ rest) = .ok (st', rest)) (hrest : rest ≠ [])
    (hlast : t.getLast? = some '\\') : t = ['\\', '\\'] := by
  rw [readElement, run_bind_ok (run_peek _)] at h
  split at h
  · obtain ⟨term, hterm, -⟩ := run_map_eq_ok.mp h
    rw [bracketClass_last hterm] at hlast
    cases hlast
  · obtain ⟨t₁, t₂, c, rfl, hc, h⟩ := run_bind_split h
    obtain rfl : t₁ = [c] := List.append_cancel_right (run_nextChar_eq_ok.mp hc)
    by_cases hslash : c = '\\'
    · subst hslash
      rcases last_append hlast with ⟨rfl, -⟩ | hlast'
      · exact absurd ((strict_escaped _).bind_left _ h) (Nat.lt_irrefl _)
      · obtain rfl := addEscaped_last h hrest hlast'
        rfl
    · rcases last_append hlast with ⟨-, hlast'⟩ | hlast'
      · exact absurd (by simpa using hlast') hslash
      · exact absurd hlast' (element_endsPlain st hslash h hrest)

theorem groupStep_last {st st' : GroupState} {t rest : List Char}
    (h : (groupStep st).run (t ++ rest) = .ok (st', rest)) (hrest : rest ≠ [])
    (hlast : t.getLast? = some '\\') : t = ['\\', '\\'] := by
  obtain ⟨t₁, t₂, st₁, rfl, hst₁, h⟩ := run_bind_split h
  have hgap : EndsPlain (gaps st₁.flags >>= fun _ => pure st₁) :=
    (gaps_endsPlain _).bind fun _ => .of_idle (pure_idle st₁)
  rcases last_append hlast with ⟨rfl, hlast'⟩ | hlast'
  · rw [List.append_nil]
    exact readElement_last hst₁ hrest hlast'
  · exact absurd hlast' (hgap h hrest)

open IRegexp

/-- Between two steps nothing is escaped. -/
theorem escapesNext_of_reads {text : List Char} {now : GroupState × List Char}
    (h : Relation.ReflTransGen Reads (.initial, text) now) :
    ∃ before, text = before ++ now.2 ∧ (now.2 = [] ∨ escapesNext before = false) := by
  induction h with
  | refl => exact ⟨[], rfl, .inr rfl⟩
  | @tail now next _ hstep ih =>
    obtain ⟨before, rfl, hbefore⟩ := ih
    obtain ⟨hne, hrun⟩ := hstep
    obtain ⟨t, ht⟩ := (groupStep now.1).rest_suffix hrun
    refine ⟨before ++ t, by rw [List.append_assoc, ht], ?_⟩
    by_cases hrest : next.2 = []
    · exact .inl hrest
    refine .inr ?_
    rw [← ht] at hrun
    rcases t.eq_nil_or_concat with rfl | ⟨init, c, rfl⟩
    · simpa using hbefore.resolve_left hne
    rw [List.concat_eq_append] at hrun ⊢
    by_cases hc : c = '\\'
    · -- the first backslash escapes the second one
      have hpair := groupStep_last hrun hrest (by simp [hc])
      rw [hpair, show ['\\', '\\'] = ['\\'] ++ ['\\'] from rfl, ← List.append_assoc,
        escapesNext_concat, escapesNext_concat, hbefore.resolve_left hne]
      rfl
    · rw [← List.append_assoc]
      exact escapesNext_concat_of_ne hc _

/-- Read from left to right, the text has a class behind `before`. -/
def ReadsClass (text before cls behind : List Char) : Prop :=
  text = before ++ cls ++ behind ∧ ∃ st term,
    Relation.ReflTransGen Reads (.initial, text) (st, cls ++ behind) ∧
      (bracketClass st.flags).run (cls ++ behind) = .ok (term, behind)

theorem readsClass_delimits (text : List Char) : Delimits (ReadsClass text) text where
  parts _ _ _ h := h.1
  bracket before cls behind h := by
    obtain ⟨htext, st, term, hreads, hclass⟩ := h
    obtain ⟨init, rfl⟩ := List.getLast?_eq_some_iff.mp (bracketClass_last hclass)
    have hhead := bracketClass_head hclass
    obtain ⟨before', htext', hbefore⟩ := escapesNext_of_reads hreads
    obtain rfl : before' = before := by
      rw [htext, List.append_assoc] at htext'
      exact (List.append_cancel_right htext').symm
    refine ⟨hbefore.resolve_left fun hnil => ?_, ?_⟩
    · rw [show init ++ [']'] ++ behind = [] from hnil] at hhead
      cases hhead
    · cases init with
      | nil => cases hhead
      | cons c init => exact hhead

end Pattern

namespace IRegexp
open Pattern

/-- A valid pattern in which each dot is escaped or in a class is left as it is exactly if no dot in
a class stands behind a closing bracket. It is then compiled to what the engine makes of it. -/
theorem spellDots_classes (engine : Engine) {p : String} {regex : Regex}
    (valid : engine.regex? p.toList = some regex)
    {isClass : List Char → List Char → List Char → Prop} (delimits : Delimits isClass p.toList)
    (dots : ∀ before behind, p.toList = before ++ '.' :: behind → escapesNext before = true ∨
      ∃ start inside rest after,
        isClass start (inside ++ '.' :: rest) after ∧ before = start ++ inside) :
    (spellDots false p.toList = p.toList ↔ ClassesOpen isClass) ∧
      (ClassesOpen isClass → engine.compile p .part = some regex ∧
        ∀ text, engine.test text p .part = regex.matchesIn text.toList) := by
  have hiff : spellDots false p.toList = p.toList ↔ ClassesOpen isClass := by
    rw [spellDots_eq_iff]
    constructor
    · intro h start inside rest after hclass
      obtain ⟨hescapes, hopened⟩ := delimits.inside hclass
      rw [← hescapes, ← hopened]
      exact h _ (rest ++ after) (by rw [delimits.parts hclass]; simp)
    · intro h before behind htext
      rcases dots before behind htext with hescapes | ⟨start, inside, rest, after, hclass, rfl⟩
      · exact .inl hescapes
      · obtain ⟨hescapes, hopened⟩ := delimits.inside hclass
        rw [hescapes, hopened]
        exact h start inside rest after hclass
  refine ⟨hiff, fun h => ?_⟩
  have hcompile : engine.compile p .part = some regex := by
    rw [Engine.compile, spelling, hiff.mpr h, valid]
  exact ⟨hcompile, fun text => by rw [Engine.test, hcompile]⟩

theorem spellDots_classes_nested :
    ∃ regex, Pattern.engine.regex? "[a[.]]\\.".toList = some regex ∧
      Delimits (ReadsClass "[a[.]]\\.".toList) "[a[.]]\\.".toList ∧
      (∀ before behind, "[a[.]]\\.".toList = before ++ '.' :: behind →
        escapesNext before = true ∨ ∃ start inside rest after,
          ReadsClass "[a[.]]\\.".toList start (inside ++ '.' :: rest) after ∧
            before = start ++ inside) ∧
      ClassesOpen (ReadsClass "[a[.]]\\.".toList) ∧
      Pattern.engine.compile "[a[.]]\\." .part = some regex ∧
      ∀ text, Pattern.engine.test text "[a[.]]\\." .part = regex.matchesIn text.toList := by
  obtain ⟨regex, hregex⟩ := Option.isSome_iff_exists.mp
    (show (Pattern.engine.regex? "[a[.]]\\.".toList).isSome = true by with_unfolding_all rfl)
  have hclass : ReadsClass "[a[.]]\\.".toList [] "[a[.]]".toList "\\.".toList :=
    ⟨rfl, .initial, _, .refl, by with_unfolding_all rfl⟩
  have dots : ∀ before behind, "[a[.]]\\.".toList = before ++ '.' :: behind →
      escapesNext before = true ∨ ∃ start inside rest after,
        ReadsClass "[a[.]]\\.".toList start (inside ++ '.' :: rest) after ∧
          before = start ++ inside := by
    intro before behind h
    obtain ⟨rest, rfl, ⟨rfl, -⟩ | ⟨rfl, -⟩⟩ : ∃ rest, before = '[' :: 'a' :: '[' :: rest ∧
        (rest = [] ∧ behind = [']', ']', '\\', '.'] ∨
          rest = ['.', ']', ']', '\\'] ∧ behind = []) := by
      simpa [List.cons_eq_append_iff] using h
    · exact .inr ⟨[], ['[', 'a', '['], [']', ']'], _, hclass, rfl⟩
    · exact .inl rfl
  have delimits := readsClass_delimits "[a[.]]\\.".toList
  obtain ⟨hiff, hcompiled⟩ := spellDots_classes Pattern.engine hregex delimits dots
  have hopen := hiff.mp (by with_unfolding_all rfl)
  exact ⟨regex, hregex, delimits, dots, hopen, hcompiled hopen⟩

/-- Behind a bracket that is a member of its class a dot is spelt out, and the class becomes another
one. -/
theorem spellDots_closing_member :
    ∃ regex, Pattern.engine.regex? "[].]".toList = some regex ∧
      (∀ before behind, "[].]".toList = before ++ '.' :: behind → ∃ start inside rest after,
        ReadsClass "[].]".toList start (inside ++ '.' :: rest) after ∧ before = start ++ inside) ∧
      spellDots false "[].]".toList ≠ "[].]".toList ∧
      regex.matchesIn "x".toList = false ∧ Pattern.engine.test "x" "[].]" .part = true := by
  have hread : (Pattern.engine.regex? "[].]".toList).map (fun regex => regex.matchesIn "x".toList) =
      some false := by
    with_unfolding_all rfl
  obtain ⟨regex, hregex, hmatches⟩ := Option.map_eq_some_iff.mp hread
  have hclass : ReadsClass "[].]".toList [] "[].]".toList [] :=
    ⟨rfl, .initial, _, .refl, by with_unfolding_all rfl⟩
  refine ⟨regex, hregex, fun before behind h => ?_, by decide, hmatches, by with_unfolding_all rfl⟩
  obtain ⟨rfl, -⟩ : before = ['[', ']'] ∧ behind = [']'] := by
    simpa [List.cons_eq_append_iff] using h
  exact ⟨[], ['[', ']'], [']'], [], hclass, rfl⟩

end IRegexp
end JsonPath
