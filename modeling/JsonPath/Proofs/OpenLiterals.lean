import JsonPath.Proofs.Diagnostics

set_option autoImplicit false

/-!
# Literals without an end

A text is closed if every quote in it that opens a literal has one that closes it. What a reader
takes is closed, so the first literal that a text leaves open is the one in which reading ends. The
failure is placed where that literal begins, but for one case: behind a backslash that nothing
follows, it is placed at the backslash.
-/
namespace JsonPath

namespace Quotation

def IsQuote (c : Char) : Prop := c = '\'' ∨ c = '"'

instance : DecidablePred IsQuote := fun c => inferInstanceAs (Decidable (c = '\'' ∨ c = '"'))

/-- What may stand behind the opening quote of a literal that is not closed yet. A backslash takes
the next character with it. -/
inductive Body (quote : Char) : List Char → Prop
  | nil : Body quote []
  | plain {c : Char} {rest : List Char} (hq : c ≠ quote) (hb : c ≠ '\\') (h : Body quote rest) :
      Body quote (c :: rest)
  | escaped (c : Char) {rest : List Char} (h : Body quote rest) : Body quote ('\\' :: c :: rest)

/-- Every literal is closed, from the first one on. -/
inductive Closed : List Char → Prop
  | nil : Closed []
  | plain {c : Char} {rest : List Char} (hc : ¬ IsQuote c) (h : Closed rest) : Closed (c :: rest)
  | literal {quote : Char} {body rest : List Char} (hq : IsQuote quote) (hbody : Body quote body)
      (h : Closed rest) : Closed (quote :: (body ++ quote :: rest))

/-- A literal from its opening quote to the end of the text, which does not close it. -/
inductive Unclosed : List Char → Prop
  | opened {quote : Char} {body : List Char} (hq : IsQuote quote) (hbody : Body quote body) :
      Unclosed (quote :: body)

theorem Body.append {quote : Char} {t t' : List Char} (h : Body quote t) (h' : Body quote t') :
    Body quote (t ++ t') := by
  induction h with
  | nil => exact h'
  | plain hq hb _ ih => exact .plain hq hb ih
  | escaped c _ ih => exact .escaped c ih

theorem Closed.append {t t' : List Char} (h : Closed t) (h' : Closed t') : Closed (t ++ t') := by
  induction h with
  | nil => exact h'
  | plain hc _ ih => exact .plain hc ih
  | literal hq hbody _ ih =>
    rw [List.cons_append, List.append_assoc]
    exact .literal hq hbody ih

theorem closed_of_plain {t : List Char} (h : ∀ c ∈ t, ¬ IsQuote c) : Closed t := by
  induction t with
  | nil => exact .nil
  | cons c t ih =>
    rw [List.forall_mem_cons] at h
    exact .plain h.1 (ih h.2)

/-! What is read between quotes is a body. -/

theorem hexValue?_plain {quote c : Char} {v : Nat} (hq : IsQuote quote)
    (h : Digit.hexValue? c = some v) : c ≠ quote ∧ c ≠ '\\' := by
  constructor
  · rintro rfl
    rcases hq with rfl | rfl <;> cases h
  · rintro rfl
    cases h

open Spelling

variable {mode : Mode} {quote : Char}

theorem ofUnit_body (hq : IsQuote quote) {n : Nat} {t : List Char} (h : OfUnit n t) :
    Body quote t := by
  cases h with
  | digits ha hb hc hd =>
    have hplain {c : Char} {v : Nat} {rest : List Char} (hv : Digit.hexValue? c = some v)
        (hrest : Body quote rest) : Body quote (c :: rest) :=
      .plain (hexValue?_plain hq hv).1 (hexValue?_plain hq hv).2 hrest
    exact hplain ha (hplain hb (hplain hc (hplain hd .nil)))

theorem ofCharacter_body (hq : IsQuote quote) {c : Char} {t : List Char}
    (h : OfCharacter mode quote c t) : Body quote t := by
  cases h with
  | itself _ hne hb => exact .plain hne hb .nil
  | short _ => exact .escaped _ .nil
  | quotation _ => exact .escaped _ .nil
  | unit h => exact .escaped 'u' (ofUnit_body hq h)
  | pair _ hh hl =>
    exact .escaped 'u' ((ofUnit_body hq hh).append (.escaped 'u' (ofUnit_body hq hl)))

theorem ofCharacters_body (hq : IsQuote quote) {cs t : List Char}
    (h : OfCharacters mode quote cs t) : Body quote t := by
  induction h with
  | nil => exact .nil
  | cons hc _ ih => exact (ofCharacter_body hq hc).append ih

theorem ofString_closed {s : String} {t : List Char} (h : OfString mode s t) : Closed t := by
  cases h with
  | quoted quote hq ht => exact .literal hq (ofCharacters_body hq ht) .nil

end Quotation

/-- Where in an open literal the failure is placed: at its quote, or at a last backslash. -/
def Failure.InLiteral (literal place : List Char) : Prop :=
  Quotation.Unclosed literal ∧ place = literal ∨
    ∃ whole, literal = whole ++ ['\\'] ∧ Quotation.Unclosed whole ∧ place = ['\\']

/-- A failure for want of a closing quote is placed in the first literal that the text leaves
open. -/
def Failure.Quoting (f : Failure) (text : List Char) : Prop :=
  f.cause = .unterminatedString →
    ∃ before literal, text = before ++ literal ∧ Quotation.Closed before ∧
      InLiteral literal f.rest

/-- A failure inside a query: it does not concern what stands behind the query. -/
structure Failure.Within (f : Failure) (input : List Char) : Prop where
  quoting : f.Quoting input
  notTrailing : ∀ s, f.cause ≠ .trailingInput s

namespace Failure
open Quotation

theorem Quoting.prepend {f : Failure} {t rest : List Char} (ht : Closed t) (h : f.Quoting rest) :
    f.Quoting (t ++ rest) := by
  intro hcause
  obtain ⟨before, literal, rfl, hbefore, hplace⟩ := h hcause
  exact ⟨t ++ before, literal, (List.append_assoc ..).symm, ht.append hbefore, hplace⟩

theorem Within.prepend {f : Failure} {t rest : List Char} (ht : Closed t) (h : f.Within rest) :
    f.Within (t ++ rest) :=
  ⟨h.quoting.prepend ht, h.notTrailing⟩

theorem within_of_cause {f : Failure} {input : List Char} (h : f.cause ≠ .unterminatedString)
    (h' : ∀ s, f.cause ≠ .trailingInput s) : f.Within input :=
  ⟨fun hcause => absurd hcause h, h'⟩

end Failure

namespace Reader
open Quotation

variable {α β : Type}

/-- On this input the reader takes closed literals only, and its failures are inside a query. -/
structure LexesAt (p : QueryReader α) (input : List Char) : Prop where
  closed : ∀ ⦃a : α⦄ ⦃rest : List Char⦄, p.run input = .ok (a, rest) →
    ∃ t, input = t ++ rest ∧ Closed t
  within : ∀ ⦃e : Failure⦄, p.run input = .error e → e.Within input

def Lexes (p : QueryReader α) : Prop := ∀ input, LexesAt p input

theorem LexesAt.bind {p : QueryReader α} {f : α → QueryReader β} {input : List Char}
    (hp : LexesAt p input) (hf : ∀ a rest, p.run input = .ok (a, rest) → LexesAt (f a) rest) :
    LexesAt (p >>= f) input where
  closed b last h := by
    obtain ⟨a, rest, ha, hb⟩ := run_bind_eq_ok.mp h
    obtain ⟨t, rfl, ht⟩ := hp.closed ha
    obtain ⟨t', rfl, ht'⟩ := (hf a rest ha).closed hb
    exact ⟨t ++ t', (List.append_assoc ..).symm, ht.append ht'⟩
  within e h := by
    rcases run_bind_eq_error.mp h with h | ⟨a, rest, ha, he⟩
    · exact hp.within h
    · obtain ⟨t, rfl, ht⟩ := hp.closed ha
      exact ((hf a rest ha).within he).prepend ht

theorem Lexes.bind {p : QueryReader α} {f : α → QueryReader β} (hp : Lexes p)
    (hf : ∀ a, Lexes (f a)) : Lexes (p >>= f) :=
  fun input => (hp input).bind fun a rest _ => hf a rest

theorem LexesAt.of_same {p : QueryReader α} {a : α} {input : List Char}
    (h : p.run input = .ok (a, input)) : LexesAt p input where
  closed b rest hb := by
    rw [h] at hb
    cases hb
    exact ⟨[], rfl, .nil⟩
  within e he := by
    rw [h] at he
    cases he

theorem LexesAt.of_error {p : QueryReader α} {e : Failure} {input : List Char}
    (h : p.run input = .error e) (hwithin : e.Within input) : LexesAt p input where
  closed b rest hb := by
    rw [h] at hb
    cases hb
  within e' he := by
    rw [h] at he
    cases he
    exact hwithin

theorem Lexes.map {p : QueryReader α} (hp : Lexes p) (f : α → β) : Lexes (f <$> p) :=
  hp.bind fun _ _ => .of_same rfl

theorem LexesAt.map {p : QueryReader α} {input : List Char} (hp : LexesAt p input) (f : α → β) :
    LexesAt (f <$> p) input :=
  hp.bind fun _ _ _ => .of_same rfl

theorem Lexes.ite {c : Prop} [Decidable c] {p q : QueryReader α} (hp : Lexes p) (hq : Lexes q) :
    Lexes (if c then p else q) := by
  split
  · exact hp
  · exact hq

theorem pure_lexes (a : α) : Lexes (pure a : QueryReader α) := fun _ => .of_same rfl

theorem LexesAt.remaining {f : List Char → QueryReader α} {input : List Char}
    (hf : LexesAt (f input) input) : LexesAt (remaining >>= f) input := by
  refine LexesAt.bind (.of_same (run_remaining input)) ?_
  rintro _ _ ⟨⟩
  exact hf

theorem LexesAt.peek {f : Option Char → QueryReader α} {input : List Char}
    (hf : LexesAt (f input.head?) input) : LexesAt (peek >>= f) input := by
  refine LexesAt.bind (.of_same (run_peek input)) ?_
  rintro _ _ ⟨⟩
  exact hf

theorem failAt_lexes (rest : List Char) {cause : SyntaxError.Cause}
    (h : cause ≠ .unterminatedString) (h' : ∀ s, cause ≠ .trailingInput s) :
    Lexes (failAt rest cause : QueryReader α) :=
  fun _ => .of_error (run_failAt rest cause _) (Failure.within_of_cause h h')

theorem tooDeep_lexes : Lexes (do failAt (← remaining) .nestingTooDeep : QueryReader α) :=
  fun _ => .remaining (failAt_lexes _ (by simp) (by simp) _)

theorem unexpectedAt_within (rest input : List Char) : (unexpectedAt rest).Within input := by
  cases rest <;> exact Failure.within_of_cause (by simp [unexpectedAt]) (by simp [unexpectedAt])

theorem unexpected_lexes : Lexes (unexpected : QueryReader α) :=
  fun input => .of_error rfl (unexpectedAt_within input input)

theorem noSelector_lexes : Lexes (noSelector : QueryReader α) := by
  intro input
  refine .of_error (run_noSelector input) ?_
  cases input <;> exact Failure.within_of_cause (by simp [noSelectorAt]) (by simp [noSelectorAt])

theorem LexesAt.of_plain {p : QueryReader α} {a : α} {t rest : List Char}
    (h : p.run (t ++ rest) = .ok (a, rest)) (ht : ∀ c ∈ t, ¬ IsQuote c) :
    LexesAt p (t ++ rest) where
  closed b rest' hb := by
    rw [h] at hb
    cases hb
    exact ⟨t, rfl, closed_of_plain ht⟩
  within e he := by
    rw [h] at he
    cases he

theorem takeWhile_lexes {test : Char → Bool} (h : ∀ c, IsQuote c → test c = false) :
    Lexes (takeWhile test : QueryReader (List Char)) := by
  intro input
  constructor
  · intro _ _ hrun
    cases hrun
    refine ⟨_, List.takeWhile_append_dropWhile.symm, closed_of_plain fun c hc hq => ?_⟩
    have hall := takeWhile_all hc
    rw [h c hq] at hall
    cases hall
  · intro _ he
    cases he

theorem blanks_lexes : Lexes blanks :=
  (takeWhile_lexes (by rintro c (rfl | rfl) <;> rfl)).bind fun _ => pure_lexes ()

theorem digits_lexes : Lexes digits := takeWhile_lexes (by rintro c (rfl | rfl) <;> rfl)

theorem LexesAt.skip {c : Char} {f : Unit → QueryReader α} {input : List Char}
    (hhead : input.head? = some c) (hc : ¬ IsQuote c) (hf : Lexes (f ())) :
    LexesAt (skip 1 >>= f) input := by
  obtain ⟨tail, rfl⟩ := List.head?_eq_some_iff.mp hhead
  have hskip : LexesAt (Reader.skip 1 : QueryReader Unit) (c :: tail) :=
    .of_plain (t := [c]) rfl (by simpa using hc)
  exact hskip.bind fun _ rest _ => hf rest

theorem satisfy_lexes {test : Char → Bool} (h : ∀ c, IsQuote c → test c = false) :
    Lexes (satisfy test unexpectedAt) := by
  intro input
  constructor
  · intro c rest hrun
    obtain ⟨rfl, hc⟩ := run_satisfy_eq_ok.mp hrun
    refine ⟨[c], rfl, .plain (fun hq => ?_) .nil⟩
    rw [h c hq] at hc
    cases hc
  · intro e he
    rw [run_satisfy_eq_error he]
    exact unexpectedAt_within _ _

theorem expect_lexes {c : Char} (hc : ¬ IsQuote c) : Lexes (expect c) := by
  refine (satisfy_lexes fun d hd => ?_).bind fun _ => pure_lexes ()
  rw [beq_eq_false_iff_ne]
  rintro rfl
  exact hc hd

theorem accept_lexes {c : Char} (hc : ¬ IsQuote c) : Lexes (accept c : QueryReader Bool) := by
  intro input
  by_cases h : input.head? = some c
  · obtain ⟨tail, rfl⟩ := List.head?_eq_some_iff.mp h
    exact .of_plain (t := [c]) (run_accept_self c tail) (by simpa using hc)
  · exact .of_same (run_accept_other h)

theorem many_lexes {starts : List Char → Bool} {item : QueryReader α} {strict : item.Strict}
    (hitem : Lexes item) : Lexes (many starts item strict) := by
  intro input
  constructor
  · intro items rest h
    refine manyRun_induction (motive := fun input _ => ∃ t, input = t ++ rest ∧ Closed t)
      ?_ ?_ h
    · exact fun _ => ⟨[], rfl, .nil⟩
    · rintro input a between items - ha ⟨ts, rfl, hts⟩
      obtain ⟨t, rfl, ht⟩ := (hitem input).closed ha
      exact ⟨t ++ ts, (List.append_assoc ..).symm, ht.append hts⟩
  · intro e h
    rw [run_many] at h
    fun_induction manyRun starts item strict input with
    | case1 input _ _ he =>
      cases h
      exact (hitem input).within he
    | case2 input _ a rest ha _ he ih =>
      cases h
      obtain ⟨t, rfl, ht⟩ := (hitem input).closed ha
      exact (ih he).prepend ht
    | case3 => cases h
    | case4 => cases h

theorem commaList_lexes {item : QueryReader α} (hitem : Lexes item) : Lexes (commaList item) := by
  have hlater : Lexes (afterComma item) :=
    blanks_lexes.bind fun _ => (expect_lexes (by decide)).bind fun _ => blanks_lexes.bind fun _ =>
      hitem
  exact hitem.bind fun _ => (many_lexes hlater).bind fun _ => pure_lexes _

theorem index_lexes (mode : Mode) : Lexes (index mode) := by
  intro input
  refine .remaining ?_
  refine ((accept_lexes (by decide)).bind fun negative => digits_lexes.bind fun ds => ?_) input
  exact .ite (failAt_lexes _ (by simp) (by simp))
    (.ite (pure_lexes _) (failAt_lexes _ (by simp) (by simp)))

theorem optionalIndex_lexes (mode : Mode) : Lexes (optionalIndex mode) :=
  fun input => .remaining (Lexes.ite ((index_lexes mode).map _) (pure_lexes none) input)

theorem fraction_lexes : Lexes fraction := by
  intro input
  refine .remaining ?_
  split
  · split
    · exact .skip rfl (by decide) digits_lexes
    · exact .of_same rfl
  · exact .of_same rfl

theorem exponent_lexes : Lexes exponent := by
  intro input
  refine .remaining ?_
  split
  · next hfollows =>
    obtain ⟨mark, sign, c, tail, rfl, hmark, -, -⟩ := (exponentFollows_iff input).mp hfollows
    have hplain : ¬ IsQuote mark := by
      rintro (rfl | rfl) <;> cases hmark
    exact .skip rfl hplain ((accept_lexes (by decide)).bind fun _ =>
      (accept_lexes (by decide)).bind fun _ => digits_lexes.bind fun _ => pure_lexes _)
  · exact .of_same rfl

theorem number_lexes (mode : Mode) : Lexes (number mode) := by
  intro input
  refine .remaining ?_
  refine ((accept_lexes (by decide)).bind fun negative => digits_lexes.bind fun whole => ?_) input
  refine .ite (failAt_lexes _ (by simp) (by simp)) (fraction_lexes.bind fun frac =>
    exponent_lexes.bind fun exp => ?_)
  intro between
  refine .remaining (Lexes.ite ?_ (.ite (pure_lexes _) (.ite (pure_lexes _) ?_)) between)
  · exact .ite (failAt_lexes _ (by simp) (by simp)) (failAt_lexes _ (by simp) (by simp))
  · exact failAt_lexes _ (by simp) (by simp)

/-- Between quotes the only failure for want of a closing quote is at a last backslash. -/
theorem stringChars_within {mode : Mode} {quote : Char} (hq : IsQuote quote) {input : List Char}
    {e : Failure} (h : manyRun (stringGoesOn quote) (stringChar mode quote)
      (strict_stringChar mode quote) input = .error e) :
    (∀ s, e.cause ≠ .trailingInput s) ∧ (e.cause = .unterminatedString →
      ∃ body, input = body ++ ['\\'] ∧ Body quote body ∧ e.rest = ['\\']) := by
  fun_induction manyRun (stringGoesOn quote) (stringChar mode quote)
    (strict_stringChar mode quote) input with
  | case1 input hgoes _ he =>
    cases h
    obtain ⟨c, tail, rfl, -, -⟩ := stringGoesOn_iff.mp hgoes
    by_cases hslash : c = '\\'
    · subst hslash
      obtain ⟨hrest, ⟨rfl, hcause⟩ | ⟨spelling, hcause, -⟩⟩ := escape_error he
      · exact ⟨by simp [hcause], fun _ => ⟨[], rfl, .nil, hrest⟩⟩
      · exact ⟨by simp [hcause], by simp [hcause]⟩
    · rw [stringChar_plain mode quote tail hslash] at he
      cases he
  | case2 input hgoes c rest hc _ he ih =>
    cases h
    obtain ⟨t, rfl, ht⟩ := stringChar_sound hgoes hc
    obtain ⟨htrailing, hplace⟩ := ih he
    refine ⟨htrailing, fun hcause => ?_⟩
    obtain ⟨body, rfl, hbody, hrest⟩ := hplace hcause
    exact ⟨t ++ body, (List.append_assoc ..).symm, (ofCharacter_body hq ht).append hbody, hrest⟩
  | case3 => cases h
  | case4 => cases h

theorem stringLiteral_lexes (mode : Mode) {quote : Char} (hq : IsQuote quote) (tail : List Char) :
    LexesAt (stringLiteral mode) (quote :: tail) where
  closed s rest h := by
    obtain ⟨t, ht, hspelt⟩ := stringLiteral_sound hq h
    exact ⟨t, ht, ofString_closed hspelt⟩
  within e h := by
    have hnext : next.run (quote :: tail) = .ok (quote, tail) := rfl
    rw [stringLiteral, run_bind_ok (run_remaining _), run_bind_ok hnext, run_bind_eq_error] at h
    rcases h with h | ⟨cs, between, hcs, h⟩
    · obtain ⟨htrailing, hplace⟩ := stringChars_within hq h
      refine ⟨fun hcause => ?_, htrailing⟩
      obtain ⟨body, rfl, hbody, hrest⟩ := hplace hcause
      rw [hrest]
      exact ⟨[], _, rfl, .nil, .inr ⟨_, rfl, .opened hq hbody, rfl⟩⟩
    · obtain ⟨t, rfl, ht⟩ := stringChars_sound hcs
      rw [run_bind_ok (run_remaining _)] at h
      split at h
      · cases h
        rw [List.append_nil]
        have hopen : Unclosed (quote :: t) := .opened hq (ofCharacters_body hq ht)
        exact ⟨fun _ => ⟨[], _, rfl, .nil, .inl ⟨hopen, rfl⟩⟩, by simp⟩
      · rw [run_ite] at h
        split at h
        · cases h
        · cases h
          exact unexpectedAt_within _ _

end Reader

namespace Grammar
open Reader Quotation

variable {mode : Mode} {inner : Nested}

structure NestedLexes (inner : Nested) : Prop where
  expression : Lexes inner.expression
  unary : Lexes inner.unary
  arguments : Lexes inner.arguments

theorem colon_lexes : Lexes colon :=
  blanks_lexes.bind fun _ => (expect_lexes (by decide)).bind fun _ => blanks_lexes

theorem indexOrSlice_lexes (mode : Mode) : Lexes (indexOrSlice mode) := by
  have hbound : Lexes (optionalIndex mode) := optionalIndex_lexes mode
  refine hbound.bind fun start => fun _ => .remaining (Lexes.ite ?_ ?_ _)
  · refine colon_lexes.bind fun _ => hbound.bind fun stop => fun _ => .remaining ?_
    exact Lexes.ite (colon_lexes.bind fun _ => hbound.map _) (pure_lexes _) _
  · cases start with
    | none => exact noSelector_lexes
    | some i => exact pure_lexes _

theorem selector_lexes (h : NestedLexes inner) : Lexes (selector mode inner) := by
  intro input
  refine .peek ?_
  split
  · next hc => exact .skip hc (by decide) (pure_lexes _)
  · next hc => exact .skip hc (by decide) (blanks_lexes.bind fun _ => h.expression.map _)
  · next c _ _ hc =>
    obtain ⟨tail, rfl⟩ := List.head?_eq_some_iff.mp hc
    split
    · next hq => exact (stringLiteral_lexes mode (by simpa [IsQuote] using hq) tail).map _
    · exact Lexes.ite (indexOrSlice_lexes mode) noSelector_lexes _
  · exact noSelector_lexes input

theorem bracketed_lexes (h : NestedLexes inner) : Lexes (bracketed mode inner) := by
  intro input
  refine .remaining (((expect_lexes (by decide)).bind fun _ => blanks_lexes.bind fun _ => ?_) input)
  intro between
  refine .peek ?_
  split
  · exact failAt_lexes _ (by simp) (by simp) _
  · exact ((commaList_lexes (selector_lexes h)).bind fun _ => blanks_lexes.bind fun _ =>
      (expect_lexes (by decide)).bind fun _ => pure_lexes _) between

theorem dotted_lexes (h : NestedLexes inner) (descendant : Bool) :
    Lexes (dotted mode inner descendant) := by
  have hname : Lexes (shorthandName mode) := by
    refine (takeWhile_lexes fun c hq => ?_).bind fun _ => pure_lexes _
    rcases hq with rfl | rfl <;> simp [Name.isLater, Name.isFirst]
  intro input
  refine .peek ?_
  split
  · next hc => exact .skip hc (by decide) (pure_lexes _)
  · exact Lexes.ite (bracketed_lexes h) (.ite (hname.map _) noSelector_lexes) input
  · exact noSelector_lexes input

theorem segment_lexes (h : NestedLexes inner) : Lexes (segment mode inner) := by
  refine blanks_lexes.bind fun _ => fun input => .peek ?_
  split
  · refine ((expect_lexes (by decide)).bind fun _ => (accept_lexes (by decide)).bind fun _ => ?_)
      input
    exact .ite ((dotted_lexes h true).map _) ((dotted_lexes h false).map _)
  · exact (bracketed_lexes h).map _ input

theorem segments_lexes (h : NestedLexes inner) : Lexes (segments mode inner) :=
  many_lexes (segment_lexes h)

theorem embedded_lexes (h : NestedLexes inner) (start : Start) :
    Lexes (embedded mode inner start) :=
  (segments_lexes h).bind fun _ => pure_lexes _

theorem named_lexes (h : NestedLexes inner) : Lexes (named inner) := by
  refine (takeWhile_lexes ?_).bind fun name => fun input => .peek ?_
  · rintro c (rfl | rfl) <;> rfl
  · exact Lexes.ite (h.arguments.map _) (pure_lexes _) input

theorem primary_lexes (h : NestedLexes inner) : Lexes (primary mode inner) := by
  intro input
  refine .peek ?_
  split
  · next hc =>
    exact .skip hc (by decide) (blanks_lexes.bind fun _ => h.expression.bind fun _ =>
      blanks_lexes.bind fun _ => (expect_lexes (by decide)).bind fun _ => pure_lexes _)
  · next hc => exact .skip hc (by decide) (embedded_lexes h .root)
  · next hc => exact .skip hc (by decide) (embedded_lexes h .current)
  · next hc =>
    obtain ⟨tail, rfl⟩ := List.head?_eq_some_iff.mp hc
    split
    · next hq => exact (stringLiteral_lexes mode (by simpa [IsQuote] using hq) tail).map _
    · exact Lexes.ite (number_lexes mode) (.ite (named_lexes h) unexpected_lexes) _
  · exact unexpected_lexes input

theorem unary_lexes (h : NestedLexes inner) : Lexes (unary mode inner) := by
  have hoperand (f : Expr → Expr) : Lexes (do blanks; f <$> inner.unary : QueryReader Expr) :=
    blanks_lexes.bind fun _ => h.unary.map f
  intro input
  refine .remaining ?_
  split
  · next hc => exact .skip hc (by decide) (hoperand .not)
  · next hc =>
    split
    · exact number_lexes mode input
    · exact .skip hc (by decide) (hoperand .negate)
  · exact primary_lexes h input

theorem chars_plain (op : BinaryOp) : ∀ c ∈ op.chars, ¬ IsQuote c := by
  cases op <;> simp [BinaryOp.chars, IsQuote]

theorem operator_lexes : Lexes operator := by
  intro input
  constructor
  · intro op rest h
    obtain ⟨-, rfl⟩ := operator_sound h
    exact ⟨op.chars, rfl, closed_of_plain (chars_plain op)⟩
  · intro e h
    have hnext {e : Failure} (he : next.run input = .error e) : e.Within input := by
      rw [run_satisfy_eq_error he]
      exact unexpectedAt_within _ _
    rw [operator, run_bind_ok (run_remaining _)] at h
    split at h
    · rcases run_bind_eq_error.mp h with h | ⟨_, _, -, h⟩
      · exact hnext h
      · cases h
    · rcases run_bind_eq_error.mp h with h | ⟨_, _, -, h⟩
      · exact hnext h
      · cases h
        exact unexpectedAt_within _ _

theorem requireSingular_lexes (start : List Char) (e : Expr) : Lexes (requireSingular start e) := by
  cases e with
  | query p => exact failAt_lexes _ (by simp) (by simp)
  | _ => exact pure_lexes ()

theorem operation_lexes {operand : QueryReader Expr} (h : Lexes operand) (start : List Char)
    (first : Expr) : Lexes (operation mode operand start first) := by
  refine blanks_lexes.bind fun _ => operator_lexes.bind fun op => blanks_lexes.bind fun _ => ?_
  refine fun input => .remaining ((h.bind fun right => .ite ?_ (pure_lexes _)) input)
  exact (requireSingular_lexes _ _).bind fun _ => (requireSingular_lexes _ _).bind fun _ =>
    pure_lexes _

theorem chain_lexes {operand : QueryReader Expr} (h : Lexes operand) (level : Nat) :
    Lexes (chain mode level operand) := by
  refine fun input => .remaining ((h.bind fun first => ?_) input)
  exact (many_lexes (operation_lexes h _ first)).bind fun _ => pure_lexes _

theorem tier_lexes (h : NestedLexes inner) (height : Nat) : Lexes (tier mode inner height) := by
  induction height with
  | zero => exact unary_lexes h
  | succ height ih => exact chain_lexes ih _

theorem arguments_lexes (h : NestedLexes inner) : Lexes (arguments mode inner) := by
  refine (expect_lexes (by decide)).bind fun _ => blanks_lexes.bind fun _ => fun input => .peek ?_
  split
  · next hc => exact .skip hc (by decide) (pure_lexes _)
  · exact ((commaList_lexes (tier_lexes h 5)).bind fun _ => blanks_lexes.bind fun _ =>
      (expect_lexes (by decide)).bind fun _ => pure_lexes _) input

theorem nested_lexes (mode : Mode) (levels : Nat) : NestedLexes (nested mode levels) := by
  induction levels with
  | zero => exact ⟨tooDeep_lexes, tooDeep_lexes, tooDeep_lexes⟩
  | succ levels ih => exact ⟨tier_lexes ih 5, unary_lexes ih, arguments_lexes ih⟩

theorem lenientBlanks_lexes (mode : Mode) : Lexes (lenientBlanks mode) := by
  cases mode with
  | strict => exact pure_lexes ()
  | lenient => exact blanks_lexes

/-- A failure is inside the query, or the query has ended and more text stands behind it. -/
theorem query_error_cases {text : List Char} {e : Failure}
    (h : (query mode).run text = .error e) :
    e.Within text ∨ ∃ tail ss between rest,
      (lenientBlanks mode).run text = .ok ((), '$' :: tail) ∧
      (segments mode (nested mode maxNesting)).run tail = .ok (ss, between) ∧
      (lenientBlanks mode).run between = .ok ((), rest) ∧ rest ≠ [] ∧
      e = ⟨rest, .trailingInput (String.ofList rest)⟩ := by
  rw [query, run_bind_eq_error] at h
  rcases h with h | ⟨_, r, hstart, h⟩
  · exact .inl ((lenientBlanks_lexes mode text).within h)
  obtain ⟨b, rfl, hb⟩ := (lenientBlanks_lexes mode text).closed hstart
  by_cases hroot : r.head? = some '$'
  · obtain ⟨tail, rfl⟩ := List.head?_eq_some_iff.mp hroot
    rw [run_bind_ok (run_accept_self '$' tail), if_pos rfl, run_bind_eq_error] at h
    have hsegments : LexesAt (segments mode (nested mode maxNesting)) tail :=
      segments_lexes (nested_lexes mode maxNesting) tail
    rcases h with h | ⟨ss, between, hss, h⟩
    · exact .inl (((hsegments.within h).prepend (.plain (by decide) .nil)).prepend hb)
    rw [run_bind_eq_error] at h
    rcases h with h | ⟨_, rest, hend, h⟩
    · have hwithin := (lenientBlanks_lexes mode between).within h
      obtain ⟨t, rfl, ht⟩ := hsegments.closed hss
      exact .inl ((hwithin.prepend (ht.plain (by decide))).prepend hb)
    · rw [run_bind_ok (run_remaining _)] at h
      split at h
      · cases h
      · cases h
        exact .inr ⟨tail, ss, between, _, hstart, hss, hend, by simp, rfl⟩
  · rw [run_bind_ok (run_accept_other hroot)] at h
    cases h
    exact .inl (Failure.within_of_cause (by simp) (by simp))

theorem query_quoting {text : List Char} {e : Failure} (h : (query mode).run text = .error e) :
    e.Quoting text := by
  rcases query_error_cases h with h | ⟨_, _, _, _, -, -, -, -, rfl⟩
  · exact h.quoting
  · rintro ⟨⟩

end Grammar

open Quotation

/-- A missing quote is reported at the opening quote of the literal that the text leaves open,
unless the text ends with a backslash that begins an escape: then it is reported there. -/
theorem Path.parse_unterminated {text : String} {mode : Mode} {position : Nat}
    (h : Path.parse text mode = .error ⟨position, .unterminatedString⟩) :
    ∃ before literal : String, text = before ++ literal ∧ Closed before.toList ∧
      (Unclosed literal.toList ∧ position = before.utf8ByteSize ∨
        ∃ whole : String, literal = whole ++ "\\" ∧ Unclosed whole.toList ∧
          position = (before ++ whole).utf8ByteSize) := by
  obtain ⟨reached, rest, rfl, rfl, hrun⟩ := Path.parse_eq_error h
  obtain ⟨before, literal, htext, hbefore, hplace⟩ := Grammar.query_quoting hrun rfl
  rw [String.toList_append] at htext
  refine ⟨String.ofList before, String.ofList literal, ?_, ?_, ?_⟩
  · rw [← String.ofList_append, ← htext, String.ofList_append, String.ofList_toList,
      String.ofList_toList]
  · rwa [String.toList_ofList]
  rcases hplace with ⟨hopen, hrest⟩ | ⟨whole, rfl, hopen, hrest⟩
  · rw [show rest.toList = literal from hrest] at htext
    have hreached := List.append_cancel_right htext
    refine .inl ⟨by rwa [String.toList_ofList], ?_⟩
    rw [← hreached, String.ofList_toList]
  · rw [show rest.toList = ['\\'] from hrest, ← List.append_assoc] at htext
    have hreached := List.append_cancel_right htext
    refine .inr ⟨String.ofList whole, String.ofList_append, by rwa [String.toList_ofList], ?_⟩
    rw [← String.ofList_append, ← hreached, String.ofList_toList]

theorem Path.parse_unterminated_escaped :
    Path.parse " $['é\\'', \"a\\\"b" .lenient = .error ⟨11, .unterminatedString⟩ ∧
      ∃ before literal : String, " $['é\\'', \"a\\\"b" = before ++ literal ∧
        Closed before.toList ∧ (Unclosed literal.toList ∧ 11 = before.utf8ByteSize ∨
          ∃ whole : String, literal = whole ++ "\\" ∧ Unclosed whole.toList ∧
            11 = (before ++ whole).utf8ByteSize) := by
  have hread : Path.parse " $['é\\'', \"a\\\"b" .lenient = .error ⟨11, .unterminatedString⟩ := by
    with_unfolding_all rfl
  exact ⟨hread, Path.parse_unterminated hread⟩

/-- Behind a last backslash the place that is reported is not a quote. -/
theorem Path.parse_unterminated_backslash :
    Path.parse "$['abc\\" .strict = .error ⟨6, .unterminatedString⟩ ∧
      ∀ (before rest : List Char) (c : Char), "$['abc\\".toList = before ++ c :: rest →
        (String.ofList before).utf8ByteSize = 6 → ¬ IsQuote c := by
  refine ⟨by with_unfolding_all rfl, fun before rest c htext hsize => ?_⟩
  have hplace : "$['abc\\".toList = "$['abc".toList ++ ['\\'] := by with_unfolding_all rfl
  rw [← byteLength_eq] at hsize
  have hsame : before = "$['abc".toList := by
    have hsize' : Reader.byteLength "$['abc".toList = 6 := by with_unfolding_all rfl
    have hsplit := htext.symm.trans hplace
    exact List.Sublist.antisymm (prefix_of_byteLength_le hsplit (by omega)).sublist
      (prefix_of_byteLength_le hsplit.symm (by omega)).sublist
  rw [hplace, hsame] at htext
  cases List.append_cancel_left htext
  decide

end JsonPath
