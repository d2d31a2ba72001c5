import JsonPath.Proofs.Invariant

set_option autoImplicit false

/-!
# Where reading stops

A failure is at a suffix of the text, and what its cause names stands there. Most readers have this
from their parts. The ones that report the place where they began, and not where they stopped, are
looked into: what was read from there is still known when they fail.
-/
namespace JsonPath

/-- What the cause says about the text from the failure on. -/
def SyntaxError.Cause.Describes : SyntaxError.Cause → List Char → Prop
  | .unexpectedCharacter c, rest => rest.head? = some c
  | .invalidSelector c, rest => rest.head? = some c
  | .unexpectedEnd, rest => rest = []
  | .trailingInput s, rest => s.toList = rest ∧ rest ≠ []
  | .malformedInteger s, rest => s.toList ≠ [] ∧ s.toList <+: rest
  | .malformedNumber s, rest => s.toList ≠ [] ∧ s.toList <+: rest
  | .invalidEscape s, rest => s.toList.head? = some '\\' ∧ s.toList <+: rest
  | .emptyBracket, rest => rest.head? = some '['
  | .nonSingularQuery _, rest => rest.head? ∈ [some '$', some '@', some '(']
  | .missingRoot, rest => rest.head? ≠ some '$'
  | .unterminatedString, _ => True
  | .nestingTooDeep, _ => True

structure Failure.Inside (f : Failure) (whole : List Char) : Prop where
  suffix : f.rest <:+ whole
  describes : f.cause.Describes f.rest
  rooted : f.cause ≠ .missingRoot

namespace Reader

variable {α β : Type} {whole : List Char}

theorem run_bind_eq_error {p : QueryReader α} {f : α → QueryReader β} {input : List Char}
    {e : Failure} :
    (p >>= f).run input = .error e ↔
      p.run input = .error e ∨
        ∃ a between, p.run input = .ok (a, between) ∧ (f a).run between = .error e := by
  cases h : p.run input with
  | error d => simp [run_bind_error h]
  | ok r =>
    obtain ⟨a, between⟩ := r
    rw [run_bind_ok h]
    simp

theorem run_map_eq_error {p : QueryReader α} {f : α → β} {input : List Char} {e : Failure} :
    (f <$> p).run input = .error e ↔ p.run input = .error e := by
  refine run_bind_eq_error.trans (or_iff_left ?_)
  rintro ⟨a, between, -, ⟨⟩⟩

/-- Every failure on this input is a failure inside the whole text. -/
def LocatesAt (whole : List Char) (p : QueryReader α) (input : List Char) : Prop :=
  ∀ ⦃e : Failure⦄, p.run input = .error e → e.Inside whole

def Locates (whole : List Char) (p : QueryReader α) : Prop :=
  ∀ ⦃input : List Char⦄, input <:+ whole → LocatesAt whole p input

theorem LocatesAt.bind {p : QueryReader α} {f : α → QueryReader β} {input : List Char}
    (hp : LocatesAt whole p input)
    (hf : ∀ a rest, p.run input = .ok (a, rest) → LocatesAt whole (f a) rest) :
    LocatesAt whole (p >>= f) input := by
  intro e h
  rcases run_bind_eq_error.mp h with h | ⟨a, rest, ha, h⟩
  · exact hp h
  · exact hf a rest ha h

theorem Locates.bind {p : QueryReader α} {f : α → QueryReader β} (hp : Locates whole p)
    (hf : ∀ a, Locates whole (f a)) : Locates whole (p >>= f) := by
  intro input hinput
  exact (hp hinput).bind fun a rest ha => hf a ((p.rest_suffix ha).trans hinput)

theorem Locates.map {p : QueryReader α} (hp : Locates whole p) (f : α → β) :
    Locates whole (f <$> p) :=
  hp.bind fun a input _ e h => by cases h

theorem Locates.ite {c : Prop} [Decidable c] {p q : QueryReader α} (hp : Locates whole p)
    (hq : Locates whole q) : Locates whole (if c then p else q) := by
  split
  · exact hp
  · exact hq

theorem Locates.of_ok {p : QueryReader α} (h : ∀ input, ∃ r, p.run input = .ok r) :
    Locates whole p := by
  intro input _ e he
  obtain ⟨r, hr⟩ := h input
  rw [hr] at he
  cases he

theorem pure_locates (a : α) : Locates whole (pure a : QueryReader α) :=
  .of_ok fun _ => ⟨_, rfl⟩

theorem remaining_locates : Locates whole (remaining : QueryReader (List Char)) :=
  .of_ok fun _ => ⟨_, rfl⟩

theorem peek_locates : Locates whole (peek : QueryReader (Option Char)) :=
  .of_ok fun _ => ⟨_, rfl⟩

theorem LocatesAt.remaining {f : List Char → QueryReader α} {input : List Char}
    (hf : LocatesAt whole (f input) input) : LocatesAt whole (remaining >>= f) input := by
  intro e h
  rw [run_bind_ok (run_remaining _)] at h
  exact hf h

theorem LocatesAt.peek {f : Option Char → QueryReader α} {input : List Char}
    (hf : LocatesAt whole (f input.head?) input) : LocatesAt whole (peek >>= f) input := by
  intro e h
  rw [run_bind_ok (run_peek _)] at h
  exact hf h

theorem skip_locates (n : Nat) : Locates whole (skip n : QueryReader Unit) :=
  .of_ok fun _ => ⟨_, rfl⟩

theorem takeWhile_locates (test : Char → Bool) :
    Locates whole (takeWhile test : QueryReader (List Char)) :=
  .of_ok fun _ => ⟨_, rfl⟩

theorem blanks_locates : Locates whole blanks :=
  .of_ok fun _ => ⟨_, rfl⟩

theorem accept_locates (c : Char) : Locates whole (accept c : QueryReader Bool) := by
  refine .of_ok fun input => ?_
  by_cases h : input.head? = some c
  · obtain ⟨tail, rfl⟩ := List.head?_eq_some_iff.mp h
    exact ⟨_, run_accept_self c tail⟩
  · exact ⟨_, run_accept_other h⟩

theorem unexpectedAt_inside {rest : List Char} (h : rest <:+ whole) :
    (unexpectedAt rest).Inside whole := by
  cases rest with
  | nil => exact ⟨h, rfl, by simp [unexpectedAt]⟩
  | cons c rest => exact ⟨h, rfl, by simp [unexpectedAt]⟩

theorem noSelectorAt_inside {rest : List Char} (h : rest <:+ whole) :
    (noSelectorAt rest).Inside whole := by
  cases rest with
  | nil => exact ⟨h, rfl, by simp [noSelectorAt]⟩
  | cons c rest => exact ⟨h, rfl, by simp [noSelectorAt]⟩

theorem unexpected_locates : Locates whole (unexpected : QueryReader α) := by
  rintro input hinput e ⟨⟩
  exact unexpectedAt_inside hinput

theorem noSelector_locates : Locates whole (noSelector : QueryReader α) := by
  rintro input hinput e ⟨⟩
  exact noSelectorAt_inside hinput

theorem tooDeep_locates :
    Locates whole (do failAt (← remaining) .nestingTooDeep : QueryReader α) := by
  rintro input hinput e ⟨⟩
  exact ⟨hinput, trivial, by simp⟩

theorem satisfy_locates (test : Char → Bool) : Locates whole (satisfy test unexpectedAt) := by
  intro input hinput e h
  rw [run_satisfy_eq_error h]
  exact unexpectedAt_inside hinput

theorem next_locates : Locates whole next := satisfy_locates _

theorem expect_locates (c : Char) : Locates whole (expect c) :=
  (satisfy_locates _).bind fun _ => pure_locates ()

theorem many_locates {starts : List Char → Bool} {item : QueryReader α} {strict : item.Strict}
    (hitem : Locates whole item) : Locates whole (many starts item strict) := by
  intro input hinput e h
  rw [run_many] at h
  fun_induction manyRun starts item strict input with
  | case1 input _ _ he =>
    cases h
    exact hitem hinput he
  | case2 input _ a rest ha _ he ih =>
    cases h
    exact ih ((item.rest_suffix ha).trans hinput) he
  | case3 => cases h
  | case4 => cases h

theorem commaList_locates {item : QueryReader α} (hitem : Locates whole item) :
    Locates whole (commaList item) := by
  have hlater : Locates whole (afterComma item) :=
    blanks_locates.bind fun _ => (expect_locates ',').bind fun _ => blanks_locates.bind fun _ =>
      hitem
  exact hitem.bind fun _ => (many_locates hlater).bind fun _ => pure_locates _

theorem accept_sign (input : List Char) :
    ∃ negative r, (accept '-' : QueryReader Bool).run input = .ok (negative, r) ∧
      input = signChars negative ++ r := by
  by_cases h : input.head? = some '-'
  · obtain ⟨tail, rfl⟩ := List.head?_eq_some_iff.mp h
    exact ⟨true, tail, run_accept_self '-' tail, rfl⟩
  · exact ⟨false, input, run_accept_other h, rfl⟩

theorem numberLike_ne_nil {input : List Char} (h : startsIndex input = true) :
    numberLike input ≠ [] := by
  cases input with
  | nil => cases h
  | cons c rest =>
    have hc : (c.isAlphanum || c == '-' || c == '+' || c == '.') = true := by
      rcases (Grammar.startsIndex_iff c rest).mp h with rfl | hd
      · decide
      · simp [Char.isAlphanum, hd]
    simp [numberLike, hc]

structure Malformed (input : List Char) (e : Failure) : Prop where
  rest : e.rest = input
  cause : ∃ literal, literal ≠ [] ∧ literal <+: input ∧
    (e.cause = .malformedInteger (String.ofList literal) ∨
      e.cause = .malformedNumber (String.ofList literal))

theorem Malformed.inside {input : List Char} {e : Failure} (h : Malformed input e)
    (hinput : input <:+ whole) : e.Inside whole := by
  obtain ⟨literal, nonempty, hprefix, hcause | hcause⟩ := h.cause
  all_goals
    refine ⟨by rwa [h.rest], ?_, by simp [hcause]⟩
    rw [hcause, h.rest]
    exact ⟨by simpa using nonempty, by simpa using hprefix⟩

theorem malformed_numberLike {input : List Char} (h : startsIndex input = true) :
    Malformed input ⟨input, .malformedInteger (String.ofList (numberLike input))⟩ ∧
      Malformed input ⟨input, .malformedNumber (String.ofList (numberLike input))⟩ := by
  have nonempty := numberLike_ne_nil h
  have hprefix : numberLike input <+: input := List.takeWhile_prefix _
  exact ⟨⟨rfl, _, nonempty, hprefix, .inl rfl⟩, ⟨rfl, _, nonempty, hprefix, .inr rfl⟩⟩

theorem index_malformed {mode : Mode} {input : List Char} {e : Failure}
    (hstart : startsIndex input = true) (h : (index mode).run input = .error e) :
    Malformed input e := by
  obtain ⟨negative, r, hsign, hinput⟩ := accept_sign input
  rw [index, run_bind_ok (run_remaining _), run_bind_ok hsign, digits,
    run_bind_ok (run_takeWhile _ _)] at h
  split at h
  · cases h
    exact (malformed_numberLike hstart).1
  next nonempty =>
  split at h
  · cases h
  · cases h
    refine ⟨rfl, signChars negative ++ r.takeWhile Char.isDigit, ?_, ?_, .inl rfl⟩
    · intro hnil
      exact nonempty (List.isEmpty_iff.mpr (List.append_eq_nil_iff.mp hnil).2)
    · rw [hinput]
      exact (List.prefix_append_right_inj _).mpr (List.takeWhile_prefix _)

theorem fraction_ok (input : List Char) : ∃ frac rest, fraction.run input = .ok (frac, rest) := by
  rw [fraction_run]
  split
  · exact ⟨_, _, rfl⟩
  · exact ⟨_, _, rfl⟩

theorem exponent_ok (input : List Char) : ∃ exp rest, exponent.run input = .ok (exp, rest) := by
  by_cases h : exponentFollows input = true
  · obtain ⟨mark, sign, c, tail, rfl, hmark, hsign, hc⟩ := (exponentFollows_iff input).mp h
    exact ⟨_, _, exponent_run tail hmark hsign hc⟩
  · refine ⟨none, input, ?_⟩
    rw [exponent, run_bind_ok (run_remaining _), if_neg h, run_pure]

theorem number_malformed {mode : Mode} {input : List Char} {e : Failure}
    (hstart : startsIndex input = true) (h : (number mode).run input = .error e) :
    Malformed input e := by
  obtain ⟨hinteger, hnumber⟩ := malformed_numberLike hstart
  obtain ⟨negative, r, hsign, hinput⟩ := accept_sign input
  rw [number, run_bind_ok (run_remaining _), run_bind_ok hsign, digits,
    run_bind_ok (run_takeWhile _ _)] at h
  split at h
  · cases h
    exact hnumber
  next nonempty =>
  obtain ⟨frac, r', hfrac⟩ := fraction_ok (r.dropWhile Char.isDigit)
  obtain ⟨exp, rest, hexp⟩ := exponent_ok r'
  rw [run_bind_ok hfrac, run_bind_ok hexp, run_bind_ok (run_remaining _)] at h
  have hshort : rest.length < input.length := by
    have hdigits : r.takeWhile Char.isDigit ≠ [] := fun hnil =>
      nonempty (List.isEmpty_iff.mpr hnil)
    have hpos := List.length_pos_iff.mpr hdigits
    have hsplit := congrArg List.length (List.takeWhile_append_dropWhile (p := Char.isDigit) (l := r))
    have hlength := congrArg List.length hinput
    have hle := fraction.rest_length_le hfrac
    have hle' := exponent.rest_length_le hexp
    simp only [List.length_append] at hsplit hlength
    omega
  dsimp only at h
  split at h
  · split at h
    · cases h
      exact hnumber
    · cases h
      exact hinteger
  split at h
  · cases h
  split at h
  · cases h
  · cases h
    refine ⟨rfl, input.take (input.length - rest.length), ?_, List.take_prefix _ _, .inr rfl⟩
    intro hnil
    have hlength := congrArg List.length hnil
    simp only [List.length_take, List.length_nil] at hlength
    omega

theorem optionalIndex_locates (mode : Mode) : Locates whole (optionalIndex mode) := by
  intro input hinput
  refine .remaining ?_
  split
  · next hstart =>
    intro e h
    exact (index_malformed hstart (run_map_eq_error.mp h)).inside hinput
  · exact pure_locates _ hinput

/-- An escape fails where its backslash is, behind which the text ends or spells no escape. -/
theorem escape_error {mode : Mode} {quote : Char} {tail : List Char} {e : Failure}
    (h : (escape mode quote).run ('\\' :: tail) = .error e) :
    e.rest = '\\' :: tail ∧ (tail = [] ∧ e.cause = .unterminatedString ∨
      ∃ spelling, e.cause = .invalidEscape (String.ofList spelling) ∧
        spelling.head? = some '\\' ∧ spelling <+: '\\' :: tail) := by
  have hnext : next.run ('\\' :: tail) = .ok ('\\', tail) := rfl
  rw [escape, run_bind_ok (run_remaining _), run_bind_ok hnext, run_bind_ok (run_remaining _)] at h
  split at h
  · cases h
    exact ⟨rfl, .inl ⟨rfl, rfl⟩⟩
  · split at h
    · cases h
    · cases h
      exact ⟨rfl, .inr ⟨_, rfl, rfl, List.take_prefix 12 _⟩⟩
  · split at h
    · cases h
    · cases h
      exact ⟨rfl, .inr ⟨_, rfl, rfl, ⟨_, rfl⟩⟩⟩

theorem escape_locates (mode : Mode) (quote : Char) {tail : List Char}
    (hinput : '\\' :: tail <:+ whole) : LocatesAt whole (escape mode quote) ('\\' :: tail) := by
  intro e h
  obtain ⟨hrest, ⟨-, hcause⟩ | ⟨spelling, hcause, hhead, hspelling⟩⟩ := escape_error h
  all_goals
    refine ⟨by rwa [hrest], ?_, by simp [hcause]⟩
    rw [hcause, hrest]
  · trivial
  · exact ⟨by simpa using hhead, by simpa using hspelling⟩

theorem stringChar_locates (mode : Mode) (quote : Char) :
    Locates whole (stringChar mode quote) := by
  intro input hinput
  refine .peek ?_
  split
  · next hslash =>
    obtain ⟨tail, rfl⟩ := List.head?_eq_some_iff.mp hslash
    exact escape_locates mode quote hinput
  · exact next_locates hinput

theorem stringLiteral_locates (mode : Mode) : Locates whole (stringLiteral mode) := by
  intro input hinput
  refine .remaining ?_
  refine (next_locates.bind fun quote => (many_locates (stringChar_locates mode quote)).bind
    fun chars => remaining_locates.bind fun rest => ?_) hinput
  split
  · rintro _ _ e ⟨⟩
    exact ⟨hinput, trivial, by simp⟩
  · split
    · exact (skip_locates 1).bind fun _ => pure_locates _
    · exact unexpected_locates

end Reader

namespace Grammar
open Reader

variable {mode : Mode} {inner : Nested} {whole : List Char}

structure NestedLocates (whole : List Char) (inner : Nested) : Prop where
  expression : Locates whole inner.expression
  unary : Locates whole inner.unary
  arguments : Locates whole inner.arguments

theorem colon_locates : Locates whole colon :=
  blanks_locates.bind fun _ => (expect_locates ':').bind fun _ => blanks_locates

theorem indexOrSlice_locates (mode : Mode) : Locates whole (indexOrSlice mode) := by
  have hbound : Locates whole (optionalIndex mode) := optionalIndex_locates mode
  refine hbound.bind fun start => remaining_locates.bind fun _ => .ite ?_ ?_
  · refine colon_locates.bind fun _ => hbound.bind fun stop => remaining_locates.bind fun _ => ?_
    exact .ite (colon_locates.bind fun _ => hbound.map _) (pure_locates _)
  · cases start with
    | none => exact noSelector_locates
    | some i => exact pure_locates _

theorem selector_locates (h : NestedLocates whole inner) : Locates whole (selector mode inner) := by
  refine peek_locates.bind fun c => ?_
  split
  · exact (skip_locates 1).bind fun _ => pure_locates _
  · exact (skip_locates 1).bind fun _ => blanks_locates.bind fun _ => h.expression.map _
  · exact .ite ((stringLiteral_locates mode).map _)
      (.ite (indexOrSlice_locates mode) noSelector_locates)
  · exact noSelector_locates

theorem bracketed_locates (h : NestedLocates whole inner) :
    Locates whole (bracketed mode inner) := by
  intro input hinput
  refine .remaining ?_
  refine (expect_locates '[' hinput).bind fun _ rest hopen => ?_
  have hstart := run_expect_eq_ok.mp hopen
  refine (blanks_locates.bind fun _ => peek_locates.bind fun c => ?_)
    ((expect '[').rest_suffix hopen |>.trans hinput)
  split
  · rintro _ _ e ⟨⟩
    exact ⟨hinput, by rw [hstart]; rfl, by simp⟩
  · exact (commaList_locates (selector_locates h)).bind fun _ => blanks_locates.bind fun _ =>
      (expect_locates ']').bind fun _ => pure_locates _

theorem dotted_locates (h : NestedLocates whole inner) (descendant : Bool) :
    Locates whole (dotted mode inner descendant) := by
  refine peek_locates.bind fun c => ?_
  split
  · exact (skip_locates 1).bind fun _ => pure_locates _
  · have hname : Locates whole (shorthandName mode) :=
      (takeWhile_locates _).bind fun _ => pure_locates _
    exact .ite (bracketed_locates h) (.ite (hname.map _) noSelector_locates)
  · exact noSelector_locates

theorem segment_locates (h : NestedLocates whole inner) : Locates whole (segment mode inner) := by
  refine blanks_locates.bind fun _ => peek_locates.bind fun c => ?_
  split
  · refine (expect_locates '.').bind fun _ => (accept_locates '.').bind fun _ => ?_
    exact .ite ((dotted_locates h true).map _) ((dotted_locates h false).map _)
  · exact (bracketed_locates h).map _

theorem segments_locates (h : NestedLocates whole inner) : Locates whole (segments mode inner) :=
  many_locates (segment_locates h)

theorem embedded_locates (h : NestedLocates whole inner) (start : Start) :
    Locates whole (embedded mode inner start) :=
  (segments_locates h).bind fun _ => pure_locates _

theorem named_locates (h : NestedLocates whole inner) : Locates whole (named inner) :=
  (takeWhile_locates _).bind fun _ => peek_locates.bind fun _ =>
    .ite (h.arguments.map _) (pure_locates _)

theorem primary_locates (h : NestedLocates whole inner) : Locates whole (primary mode inner) := by
  intro input hinput
  refine .peek ?_
  split
  · refine ((skip_locates 1).bind fun _ => blanks_locates.bind fun _ => h.expression.bind fun _ =>
      blanks_locates.bind fun _ => ?_) hinput
    exact (expect_locates ')').bind fun _ => pure_locates _
  · exact ((skip_locates 1).bind fun _ => embedded_locates h .root) hinput
  · exact ((skip_locates 1).bind fun _ => embedded_locates h .current) hinput
  · next hc =>
    obtain ⟨tail, rfl⟩ := List.head?_eq_some_iff.mp hc
    split
    · exact ((stringLiteral_locates mode).map _) hinput
    split
    · next hdigit =>
      have hstart := (startsIndex_iff _ tail).mpr (.inr hdigit)
      exact fun e he => (number_malformed hstart he).inside hinput
    · exact (Locates.ite (named_locates h) unexpected_locates) hinput
  · exact unexpected_locates hinput

theorem unary_locates (h : NestedLocates whole inner) : Locates whole (unary mode inner) := by
  intro input hinput
  refine .remaining ?_
  have hprefix (f : Expr → Expr) :
      Locates whole (do skip 1; blanks; f <$> inner.unary : QueryReader Expr) :=
    (skip_locates 1).bind fun _ => blanks_locates.bind fun _ => h.unary.map f
  split
  · exact hprefix .not hinput
  · next hc =>
    split
    · obtain ⟨tail, rfl⟩ := List.head?_eq_some_iff.mp hc
      exact fun e he => (number_malformed rfl he).inside hinput
    · exact hprefix .negate hinput
  · exact primary_locates h hinput

def QueriesOpen (p : QueryReader Expr) : Prop :=
  ∀ ⦃input rest : List Char⦄ ⦃e : Expr⦄, p.run input = .ok (e, rest) → e.isQuery = true →
    input.head? ∈ [some '$', some '@', some '(']

theorem queriesOpen_of_yields {p : QueryReader Expr} (h : p.Yields fun e => e.isQuery = false) :
    QueriesOpen p := by
  intro input rest e hrun hquery
  rw [h hrun] at hquery
  cases hquery

theorem number_not_query : (number mode).Yields fun e => e.isQuery = false := by
  intro input rest e h
  have hnumeral := number_isNumeral mode h
  cases e with
  | query p => cases hnumeral
  | _ => rfl

theorem keyword_not_query (name : String) : (keyword name).isQuery = false := by
  unfold keyword
  split_ifs <;> rfl

theorem primary_queriesOpen : QueriesOpen (primary mode inner) := by
  intro input rest e hrun hquery
  rw [primary, run_bind_ok (run_peek _)] at hrun
  split at hrun
  · next hc => simp [hc]
  · next hc => simp [hc]
  · next hc => simp [hc]
  · have hother : (named inner).Yields fun e => e.isQuery = false := by
      refine Yields.after _ fun name => Yields.after _ fun c => ?_
      split
      · exact Yields.map (P := fun _ => True) (fun _ _ _ _ => trivial) fun _ _ => rfl
      · exact yields_pure (keyword_not_query _)
    rw [run_ite, run_ite, run_ite] at hrun
    split at hrun
    · obtain ⟨s, -, rfl⟩ := run_map_eq_ok.mp hrun
      cases hquery
    split at hrun
    · exact queriesOpen_of_yields number_not_query hrun hquery
    split at hrun
    · exact queriesOpen_of_yields hother hrun hquery
    · cases hrun
  · cases hrun

theorem unary_queriesOpen : QueriesOpen (unary mode inner) := by
  have hprefix (f : Expr → Expr) (hf : ∀ e, (f e).isQuery = false) :
      QueriesOpen (do skip 1; blanks; f <$> inner.unary : QueryReader Expr) :=
    queriesOpen_of_yields (Yields.after _ fun _ => Yields.after _ fun _ =>
      Yields.map (P := fun _ => True) (fun _ _ _ _ => trivial) fun e _ => hf e)
  intro input rest e hrun hquery
  rw [unary, run_bind_ok (run_remaining _)] at hrun
  split at hrun
  · exact hprefix .not (fun _ => rfl) hrun hquery
  · split at hrun
    · exact queriesOpen_of_yields number_not_query hrun hquery
    · exact hprefix .negate (fun _ => rfl) hrun hquery
  · exact primary_queriesOpen hrun hquery

theorem chain_queriesOpen {operand : QueryReader Expr} (h : QueriesOpen operand) (level : Nat) :
    QueriesOpen (chain mode level operand) := by
  intro input rest e hrun hquery
  obtain ⟨first, between, later, hfirst, -, rfl⟩ := chain_eq_ok_iff.mp hrun
  rcases List.eq_nil_or_concat later with rfl | ⟨earlier, last, rfl⟩
  · exact h hfirst hquery
  · rw [List.concat_eq_append, List.foldl_append] at hquery
    cases hquery

theorem requireSingular_locates {start : List Char} (hstart : start <:+ whole) {e : Expr}
    (he : e.isQuery = true → start.head? ∈ [some '$', some '@', some '(']) :
    Locates whole (requireSingular start e) := by
  cases e with
  | query p =>
    rintro _ _ e ⟨⟩
    exact ⟨hstart, he rfl, by simp⟩
  | _ => exact pure_locates ()

theorem operator_locates : Locates whole operator := by
  refine remaining_locates.bind fun _ => ?_
  split
  · exact next_locates.bind fun _ => (skip_locates _).bind fun _ => pure_locates _
  · exact next_locates.bind fun _ => unexpected_locates

theorem operation_locates {operand : QueryReader Expr} (hoperand : Locates whole operand)
    (hopen : QueriesOpen operand) {start : List Char} (hstart : start <:+ whole) {first : Expr}
    (hfirst : first.isQuery = true → start.head? ∈ [some '$', some '@', some '(']) :
    Locates whole (operation mode operand start first) := by
  refine blanks_locates.bind fun _ => operator_locates.bind fun op => blanks_locates.bind fun _ => ?_
  intro input hinput
  refine .remaining ?_
  refine (hoperand hinput).bind fun right rest hright => ?_
  refine Locates.ite ?_ (pure_locates _) ((operand.rest_suffix hright).trans hinput)
  refine (requireSingular_locates hstart hfirst).bind fun _ => ?_
  exact (requireSingular_locates hinput (hopen hright)).bind fun _ => pure_locates _

theorem chain_locates {operand : QueryReader Expr} (hoperand : Locates whole operand)
    (hopen : QueriesOpen operand) (level : Nat) : Locates whole (chain mode level operand) := by
  intro input hinput
  refine .remaining ?_
  refine (hoperand hinput).bind fun first rest hfirst => ?_
  have hlater : Locates whole (operation mode operand input first) :=
    operation_locates hoperand hopen hinput (hopen hfirst)
  exact ((many_locates hlater).bind fun _ => pure_locates _)
    ((operand.rest_suffix hfirst).trans hinput)

theorem tier_locates (h : NestedLocates whole inner) (height : Nat) :
    Locates whole (tier mode inner height) ∧ QueriesOpen (tier mode inner height) := by
  induction height with
  | zero => exact ⟨unary_locates h, unary_queriesOpen⟩
  | succ height ih => exact ⟨chain_locates ih.1 ih.2 _, chain_queriesOpen ih.2 _⟩

theorem expression_locates (h : NestedLocates whole inner) :
    Locates whole (expression mode inner) :=
  (tier_locates h 5).1

theorem arguments_locates (h : NestedLocates whole inner) :
    Locates whole (arguments mode inner) := by
  refine (expect_locates '(').bind fun _ => blanks_locates.bind fun _ => peek_locates.bind
    fun c => ?_
  split
  · exact (skip_locates 1).bind fun _ => pure_locates _
  · exact (commaList_locates (expression_locates h)).bind fun _ => blanks_locates.bind fun _ =>
      (expect_locates ')').bind fun _ => pure_locates _

theorem nested_locates (mode : Mode) (levels : Nat) :
    NestedLocates whole (nested mode levels) := by
  induction levels with
  | zero => exact ⟨tooDeep_locates, tooDeep_locates, tooDeep_locates⟩
  | succ levels ih => exact ⟨expression_locates ih, unary_locates ih, arguments_locates ih⟩

def leading : Mode → List Char → List Char
  | .strict, _ => []
  | .lenient, text => text.takeWhile isBlank

theorem lenientBlanks_leading (mode : Mode) (text : List Char) :
    ∃ rest, (lenientBlanks mode).run text = .ok ((), rest) ∧ text = leading mode text ++ rest := by
  cases mode with
  | strict => exact ⟨text, rfl, rfl⟩
  | lenient => exact ⟨_, rfl, List.takeWhile_append_dropWhile.symm⟩

theorem query_error {text : List Char} {e : Failure} (h : (query mode).run text = .error e) :
    e.rest <:+ text ∧ e.cause.Describes e.rest ∧
      (e.cause = .missingRoot → text = leading mode text ++ e.rest) := by
  obtain ⟨rest, hblanks, htext⟩ := lenientBlanks_leading mode text
  have hrest : rest <:+ text := (lenientBlanks mode).rest_suffix hblanks
  rw [query, run_bind_ok hblanks] at h
  by_cases hroot : rest.head? = some '$'
  · obtain ⟨tail, rfl⟩ := List.head?_eq_some_iff.mp hroot
    rw [run_bind_ok (run_accept_self '$' tail), if_pos rfl] at h
    have hend : Locates text (lenientBlanks mode) := .of_ok fun input => by
      obtain ⟨_, hrun, -⟩ := lenientBlanks_leading mode input
      exact ⟨_, hrun⟩
    have hinside : e.Inside text := by
      refine ((segments_locates (nested_locates mode maxNesting)).bind fun ss =>
        hend.bind fun _ => ?_) ((List.suffix_cons '$' tail).trans hrest) h
      intro input hinput
      refine .remaining ?_
      split
      · exact pure_locates _ hinput
      · rintro _ ⟨⟩
        exact ⟨hinput, ⟨by simp, by simp⟩, by simp⟩
    exact ⟨hinside.suffix, hinside.describes, fun hmissing => absurd hmissing hinside.rooted⟩
  · rw [run_bind_ok (run_accept_other hroot)] at h
    cases h
    exact ⟨hrest, hroot, fun _ => htext⟩

end Grammar

theorem byteLength_eq (chars : List Char) :
    Reader.byteLength chars = (String.ofList chars).utf8ByteSize := by
  induction chars with
  | nil => rfl
  | cons c rest ih =>
    change c.utf8Size + Reader.byteLength rest = _
    rw [String.ofList_cons, String.utf8ByteSize_append, String.utf8ByteSize_singleton, ih]

theorem byteLength_append (t rest : List Char) :
    Reader.byteLength (t ++ rest) = Reader.byteLength t + Reader.byteLength rest := by
  simp only [byteLength_eq, String.ofList_append, String.utf8ByteSize_append]

theorem prefix_of_byteLength_le {t t' rest rest' : List Char} (h : t ++ rest = t' ++ rest')
    (hle : Reader.byteLength t ≤ Reader.byteLength t') : t <+: t' := by
  rcases List.append_eq_append_iff.mp h with ⟨more, rfl, -⟩ | ⟨more, rfl, -⟩
  · exact List.prefix_append _ _
  · cases more with
    | nil => simp
    | cons c more =>
      have hsize : Reader.byteLength (c :: more) = c.utf8Size + Reader.byteLength more := rfl
      have hpos := Char.utf8Size_pos c
      rw [byteLength_append] at hle
      omega

theorem Path.parse_eq_error {text : String} {mode : Mode} {e : SyntaxError}
    (h : Path.parse text mode = .error e) :
    ∃ before rest : String, text = before ++ rest ∧ e.position = before.utf8ByteSize ∧
      (Grammar.query mode).run text.toList = .error ⟨rest.toList, e.cause⟩ := by
  rw [Path.parse, Reader.parse] at h
  split at h
  · cases h
  next failure hrun =>
  cases h
  obtain ⟨⟨before, hbefore⟩, -, -⟩ := Grammar.query_error hrun
  refine ⟨String.ofList before, String.ofList failure.rest, ?_, ?_, ?_⟩
  · rw [← String.ofList_append, hbefore, String.ofList_toList]
  · change Reader.byteLength text.toList - Reader.byteLength failure.rest = _
    rw [← hbefore, byteLength_append, Nat.add_sub_cancel, byteLength_eq]
  · rw [String.toList_ofList, hrun]

/-- A syntax error points at a place in the text, between two characters, that is as it says. -/
theorem Path.parse_error {text : String} {mode : Mode} {e : SyntaxError}
    (h : Path.parse text mode = .error e) :
    ∃ before rest : String, text = before ++ rest ∧ e.position = before.utf8ByteSize ∧
      e.cause.Describes rest.toList ∧
      (e.cause = .missingRoot → before.toList = Grammar.leading mode text.toList) := by
  obtain ⟨before, rest, htext, hposition, hrun⟩ := Path.parse_eq_error h
  obtain ⟨-, hdescribes, hroot⟩ := Grammar.query_error hrun
  refine ⟨before, rest, htext, hposition, hdescribes, fun hmissing => ?_⟩
  have hsplit := congrArg String.toList htext
  rw [String.toList_append] at hsplit
  exact List.append_cancel_right (hsplit.symm.trans (hroot hmissing))

theorem Path.parse_error_escape :
    Path.parse " $['é', \"\\ud800x\"]" .lenient = .error ⟨10, .invalidEscape "\\ud800x\"]"⟩ ∧
      ∃ before rest : String, " $['é', \"\\ud800x\"]" = before ++ rest ∧ 10 = before.utf8ByteSize ∧
        SyntaxError.Cause.Describes (.invalidEscape "\\ud800x\"]") rest.toList := by
  have hread : Path.parse " $['é', \"\\ud800x\"]" .lenient =
      .error ⟨10, .invalidEscape "\\ud800x\"]"⟩ := by
    with_unfolding_all rfl
  obtain ⟨before, rest, htext, hposition, hdescribes, -⟩ := Path.parse_error hread
  exact ⟨hread, before, rest, htext, hposition, hdescribes⟩

end JsonPath
