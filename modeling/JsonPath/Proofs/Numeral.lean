import JsonPath.Proofs.Reading
import JsonPath.Proofs.Spelling
import Mathlib.Tactic.IntervalCases

set_option autoImplicit false

/-!
# Numerals

An index is read from exactly its spellings, up to the first character that is not a digit. A number
of a filter is read the same with more text behind it, as long as that text cannot belong to it.
-/
namespace JsonPath.Reader
open Spelling

theorem hasLeadingZero_iff (ds : List Char) :
    hasLeadingZero ds = true ↔ ds.head? = some '0' ∧ ds ≠ ['0'] := by
  match ds with
  | [] => simp [hasLeadingZero]
  | [c] => simp [hasLeadingZero]
  | c :: d :: rest =>
    by_cases hc : c = '0'
    · simp [hasLeadingZero, hc]
    · simp [hasLeadingZero, hc]

theorem indexAllowed_iff (mode : Mode) (negative : Bool) (ds : List Char) :
    indexAllowed mode negative ds = true ↔
      Word.fits (signed negative ds) = true ∧
        (mode = .strict → ds.head? = some '0' → ds = ['0'] ∧ negative = false) ∧
        (mode = .strict → (signed negative ds).natAbs ≤ maxExact) := by
  have hzero := hasLeadingZero_iff ds
  cases mode with
  | lenient => simp [indexAllowed]
  | strict =>
    cases hl : hasLeadingZero ds <;> by_cases hd : ds = ['0'] <;> cases negative <;>
      simp_all [indexAllowed]

theorem accept_signChars (negative : Bool) {ds : List Char} (hds : ∀ d ∈ ds, d.isDigit = true)
    (nonempty : ds ≠ []) (rest : List Char) :
    (accept '-' : QueryReader Bool).run (signChars negative ++ (ds ++ rest)) =
      .ok (negative, ds ++ rest) := by
  cases negative with
  | true => exact run_accept_self '-' _
  | false =>
    obtain ⟨d, tail, rfl⟩ := List.exists_cons_of_ne_nil nonempty
    refine run_accept_other ?_
    have hd := hds d (by simp)
    intro h
    cases h
    revert hd
    decide

theorem index_run {mode : Mode} {i : Int} {t rest : List Char} (h : OfIndex mode i t)
    (hrest : ∀ c ∈ rest.head?, c.isDigit = false) :
    (index mode).run (t ++ rest) = .ok (i, rest) := by
  cases h with
  | @decimal negative ds nonempty hds fits canonical small =>
    have hallowed := (indexAllowed_iff mode negative ds).mpr ⟨fits, canonical, small⟩
    rw [List.append_assoc]
    simp only [index, run_bind_eq_ok, run_remaining]
    refine ⟨_, _, rfl, negative, ds ++ rest, accept_signChars negative hds nonempty rest,
      ds, rest, ?_, ?_⟩
    · rw [digits, run_takeWhile, takeWhile_append_of_all hds hrest,
        dropWhile_append_of_all hds hrest]
    · rw [if_neg (by simpa using nonempty), if_pos hallowed, run_pure]

theorem index_sound {mode : Mode} {i : Int} {input rest : List Char}
    (h : (index mode).run input = .ok (i, rest)) :
    (∃ t, input = t ++ rest ∧ OfIndex mode i t) ∧ ∀ c ∈ rest.head?, c.isDigit = false := by
  simp only [index, run_bind_eq_ok, run_remaining] at h
  obtain ⟨_, _, ⟨⟩, negative, between, haccept, ds, _, ⟨⟩, h⟩ := h
  have hsplit := between.takeWhile_append_dropWhile (p := Char.isDigit)
  split at h
  · cases h
  next nonempty =>
  split at h
  next hallowed =>
    cases h
    obtain ⟨fits, canonical, small⟩ := (indexAllowed_iff mode negative _).mp hallowed
    refine ⟨⟨_, ?_, .decimal negative (by simpa using nonempty)
      (fun _ => takeWhile_all) fits canonical small⟩, fun _ => head_dropWhile⟩
    rw [List.append_assoc, hsplit]
    rcases run_accept_eq_ok.mp haccept with ⟨rfl, rfl⟩ | ⟨rfl, -, rfl⟩ <;> rfl
  · cases h

theorem head_toDigits {n : Nat} (h : 0 < n) : (Nat.toDigits 10 n).head? ≠ some '0' := by
  induction n using Nat.strongRecOn with
  | ind n ih =>
    rw [Nat.toDigits_eq_if (by omega)]
    split
    · next hn =>
      interval_cases n <;> decide
    · next hn =>
      have hhead := ih (n / 10) (by omega) (by omega)
      rw [List.head?_append]
      cases hd : (Nat.toDigits 10 (n / 10)).head? with
      | none => exact absurd (List.head?_eq_none_iff.mp hd) Nat.toDigits_ne_nil
      | some d => rw [← hd]; simpa [hd] using hhead

theorem isDigit_toDigits {n : Nat} {d : Char} (h : d ∈ Nat.toDigits 10 n) : d.isDigit = true :=
  Nat.isDigit_of_mem_toDigits (by decide) (by decide) h

theorem value_toDigits (n : Nat) : Digit.value (Nat.toDigits 10 n) = n :=
  Nat.ofDigitChars_ten_toDigits

theorem intChars_eq (i : Int) :
    Decimal.intChars i = signChars (decide (i < 0)) ++ Nat.toDigits 10 i.natAbs := by
  cases i with
  | ofNat n =>
    have h : ¬ (Int.ofNat n < 0) := Int.not_lt.mpr (Int.natCast_nonneg n)
    rw [decide_eq_false h]
    rfl
  | negSucc n =>
    rw [decide_eq_true (Int.negSucc_lt_zero n)]
    rfl

theorem signed_toDigits (i : Int) :
    signed (decide (i < 0)) (Nat.toDigits 10 i.natAbs) = i := by
  by_cases h : i < 0
  · rw [decide_eq_true h, signed, if_pos rfl, value_toDigits]
    omega
  · rw [decide_eq_false h, signed, if_neg (by decide), value_toDigits]
    omega

theorem canonical_toDigits {i : Int} (h : (Nat.toDigits 10 i.natAbs).head? = some '0') :
    Nat.toDigits 10 i.natAbs = ['0'] ∧ decide (i < 0) = false := by
  have hzero : i.natAbs = 0 := by
    by_contra hn
    exact head_toDigits (Nat.pos_of_ne_zero hn) h
  have hi : i = 0 := Int.natAbs_eq_zero.mp hzero
  subst hi
  exact ⟨rfl, rfl⟩

theorem ofIndex_intChars {mode : Mode} {i : Int} (fits : Word.fits i = true)
    (small : mode = .strict → i.natAbs ≤ maxExact) : OfIndex mode i (Decimal.intChars i) := by
  have hsigned := signed_toDigits i
  have h : OfIndex mode (signed (decide (i < 0)) (Nat.toDigits 10 i.natAbs))
      (signChars (decide (i < 0)) ++ Nat.toDigits 10 i.natAbs) :=
    .decimal _ Nat.toDigits_ne_nil (fun _ => isDigit_toDigits) (by rwa [hsigned])
      (fun _ => canonical_toDigits) (by rwa [hsigned])
  rwa [hsigned, ← intChars_eq] at h

/-- The text that follows cannot belong to a number. -/
def EndsNumber (rest : List Char) : Prop :=
  ∀ c ∈ rest.head?, c.isDigit = false ∧ isFloatMark c = false

theorem digits_append {t rest between ds : List Char} (hrest : EndsNumber rest)
    (h : digits.run t = .ok (ds, between)) :
    digits.run (t ++ rest) = .ok (ds, between ++ rest) := by
  rw [digits, run_takeWhile] at h ⊢
  cases h
  rw [takeWhile_append_of_head fun c hc => (hrest c hc).1,
    dropWhile_append_of_head fun c hc => (hrest c hc).1]

theorem accept_append {c : Char} {t rest between : List Char} {b : Bool} (ht : t ≠ [])
    (h : (accept c : QueryReader Bool).run t = .ok (b, between)) :
    (accept c : QueryReader Bool).run (t ++ rest) = .ok (b, between ++ rest) := by
  rcases run_accept_eq_ok.mp h with ⟨rfl, rfl⟩ | ⟨rfl, hc, rfl⟩
  · exact run_accept_self c _
  · obtain ⟨d, tail, rfl⟩ := List.exists_cons_of_ne_nil ht
    exact run_accept_other hc

def fractionFollows : List Char → Bool
  | '.' :: c :: _ => c.isDigit
  | _ => false

theorem fraction_run (input : List Char) :
    fraction.run input = if fractionFollows input then digits.run (input.drop 1)
      else .ok ([], input) := by
  change (match input with
    | '.' :: c :: _ => if c.isDigit then (do skip 1; digits) else pure []
    | _ => pure [] : QueryReader (List Char)).run input = _
  split
  · next c tail =>
    rw [run_ite]
    rfl
  · next h =>
    have hf : fractionFollows input = false := by
      unfold fractionFollows
      split
      · exact absurd rfl (h _ _)
      · rfl
    rw [hf]
    rfl

theorem fractionFollows_append {rest : List Char} (hrest : EndsNumber rest) (t : List Char) :
    fractionFollows (t ++ rest) = fractionFollows t := by
  match t with
  | [] =>
    cases rest with
    | nil => rfl
    | cons c tail =>
      have hc := (hrest c rfl).2
      unfold fractionFollows
      split
      · next h => cases h; simp [isFloatMark] at hc
      · rfl
  | [c] =>
    cases rest with
    | nil => rfl
    | cons d tail =>
      have hd := (hrest d rfl).1
      by_cases hc : c = '.' <;> simp [fractionFollows, hc, hd]
  | c :: d :: more =>
    by_cases hc : c = '.' <;> simp [fractionFollows, hc]

theorem fraction_append {t rest between frac : List Char} (hrest : EndsNumber rest)
    (h : fraction.run t = .ok (frac, between)) :
    fraction.run (t ++ rest) = .ok (frac, between ++ rest) := by
  rw [fraction_run] at h ⊢
  rw [fractionFollows_append hrest]
  split
  · next hf =>
    rw [if_pos hf] at h
    cases t with
    | nil => cases hf
    | cons c tail => exact digits_append hrest h
  · next hf =>
    rw [if_neg hf] at h
    cases h
    rfl

theorem digit_ne {c d : Char} (hc : c.isDigit = true) (hd : d.isDigit = false) : c ≠ d := by
  rintro rfl
  rw [hc] at hd
  cases hd

def exponentSigns : List (List Char) := [[], ['+'], ['-']]

theorem exponentFollows_iff (t : List Char) :
    exponentFollows t = true ↔ ∃ mark sign c tail, t = mark :: (sign ++ c :: tail) ∧
      isExponentMark mark = true ∧ sign ∈ exponentSigns ∧ c.isDigit = true := by
  constructor
  · intro h
    unfold exponentFollows at h
    split at h
    · next mark c tail =>
      exact ⟨mark, ['+'], c, tail, rfl, by simp_all, by simp [exponentSigns], by simp_all⟩
    · next mark c tail =>
      exact ⟨mark, ['-'], c, tail, rfl, by simp_all, by simp [exponentSigns], by simp_all⟩
    · next mark c tail _ _ =>
      exact ⟨mark, [], c, tail, rfl, by simp_all, by simp [exponentSigns], by simp_all⟩
    · cases h
  · rintro ⟨mark, sign, c, tail, rfl, hmark, hsign, hc⟩
    have hplus : c ≠ '+' := digit_ne hc (by decide)
    have hminus : c ≠ '-' := digit_ne hc (by decide)
    simp only [exponentSigns, List.mem_cons, List.not_mem_nil, or_false] at hsign
    rcases hsign with rfl | rfl | rfl
    · simp [exponentFollows, hmark, hc, hplus, hminus]
    · simp [exponentFollows, hmark, hc]
    · simp [exponentFollows, hmark, hc]

theorem exponentFollows_of_head {rest : List Char} (hrest : EndsNumber rest) :
    exponentFollows rest = false := by
  rw [Bool.eq_false_iff]
  intro h
  obtain ⟨mark, sign, c, tail, rfl, hmark, -⟩ := (exponentFollows_iff rest).mp h
  have hnot := (hrest mark rfl).2
  simp [isFloatMark, hmark] at hnot

theorem exponent_run {mark c : Char} {sign : List Char} (tail : List Char)
    (hmark : isExponentMark mark = true) (hsign : sign ∈ exponentSigns) (hc : c.isDigit = true) :
    exponent.run (mark :: (sign ++ c :: tail)) =
      .ok (some (signed (sign == ['-']) ((c :: tail).takeWhile Char.isDigit)),
        (c :: tail).dropWhile Char.isDigit) := by
  have hfollows := (exponentFollows_iff _).mpr ⟨mark, sign, c, tail, rfl, hmark, hsign, hc⟩
  have hplus : (accept '+' : QueryReader Bool).run (c :: tail) = .ok (false, c :: tail) :=
    run_accept_other fun h => digit_ne hc (by decide) (Option.some.inj h)
  have hminus : (accept '-' : QueryReader Bool).run (c :: tail) = .ok (false, c :: tail) :=
    run_accept_other fun h => digit_ne hc (by decide) (Option.some.inj h)
  simp only [exponent, run_bind_eq_ok, run_remaining]
  refine ⟨_, _, rfl, ?_⟩
  rw [if_pos hfollows]
  simp only [run_bind_eq_ok, run_skip]
  refine ⟨(), _, rfl, ?_⟩
  simp only [exponentSigns, List.mem_cons, List.not_mem_nil, or_false] at hsign
  rcases hsign with rfl | rfl | rfl
  · exact ⟨false, _, hminus, false, _, hplus, _, _, rfl, rfl⟩
  · exact ⟨false, _, run_accept_other (by simp), true, _, run_accept_self '+' _, _, _, rfl, rfl⟩
  · exact ⟨true, _, run_accept_self '-' _, false, _, hplus, _, _, rfl, rfl⟩

theorem exponent_append {t rest : List Char} {exp : Option Int} (hrest : EndsNumber rest)
    (h : exponent.run t = .ok (exp, [])) :
    exponent.run (t ++ rest) = .ok (exp, rest) := by
  by_cases hf : exponentFollows t = true
  · obtain ⟨mark, sign, c, tail, rfl, hmark, hsign, hc⟩ := (exponentFollows_iff _).mp hf
    rw [exponent_run tail hmark hsign hc, Except.ok.injEq, Prod.mk.injEq] at h
    obtain ⟨rfl, hend⟩ := h
    have hsplit : mark :: (sign ++ c :: tail) ++ rest = mark :: (sign ++ c :: (tail ++ rest)) := by
      simp
    rw [hsplit, exponent_run (tail ++ rest) hmark hsign hc, ← List.cons_append,
      takeWhile_append_of_head fun d hd => (hrest d hd).1,
      dropWhile_append_of_head fun d hd => (hrest d hd).1, hend, List.nil_append]
  · have hnone : ∀ input : List Char, exponentFollows input = false →
        exponent.run input = .ok (none, input) := by
      intro input hi
      simp only [exponent, run_bind_eq_ok, run_remaining]
      exact ⟨_, _, rfl, by rw [if_neg (by simp [hi]), run_pure]⟩
    rw [hnone t (by simpa using hf)] at h
    cases h
    rw [List.nil_append, hnone rest (exponentFollows_of_head hrest)]

theorem number_append {mode : Mode} {e : Expr} {t rest : List Char} (hrest : EndsNumber rest)
    (h : (number mode).run t = .ok (e, [])) : (number mode).run (t ++ rest) = .ok (e, rest) := by
  simp only [number, run_bind_eq_ok, run_remaining] at h ⊢
  obtain ⟨_, _, ⟨⟩, negative, r1, hsign, whole, r2, hwhole, h⟩ := h
  split at h
  · cases h
  next nonempty =>
  have ht : t ≠ [] := by
    rintro rfl
    cases hsign
    cases hwhole
    exact nonempty rfl
  refine ⟨_, _, rfl, negative, r1 ++ rest, accept_append ht hsign, whole, r2 ++ rest,
    digits_append hrest hwhole, ?_⟩
  rw [if_neg nonempty]
  simp only [run_bind_eq_ok, run_remaining] at h ⊢
  obtain ⟨frac, r3, hfrac, exp, r4, hexp, _, _, ⟨⟩, h⟩ := h
  have hmark : rest.head?.any isFloatMark = false := by
    cases rest with
    | nil => rfl
    | cons c tail => exact (hrest c rfl).2
  split at h
  · split at h <;> cases h
  next hfree =>
  have hzero : ¬ (rest.head?.any isFloatMark || (decide (mode = .strict) && hasLeadingZero whole))
      = true := by
    simp_all
  split at h
  · next hinteger =>
    cases h
    refine ⟨frac, r3 ++ rest, fraction_append hrest hfrac, exp, rest,
      exponent_append hrest hexp, rest, rest, rfl, ?_⟩
    rw [if_neg hzero, if_pos hinteger, run_pure]
  next hfloat =>
  split at h
  · next hfinite =>
    cases h
    refine ⟨frac, r3 ++ rest, fraction_append hrest hfrac, exp, rest,
      exponent_append hrest hexp, rest, rest, rfl, ?_⟩
    rw [if_neg hzero, if_neg hfloat, if_pos hfinite, run_pure]
  · cases h

theorem number_head {mode : Mode} {e : Expr} {t rest : List Char}
    (h : (number mode).run t = .ok (e, rest)) :
    ∃ negative d tail, t = signChars negative ++ d :: tail ∧ d.isDigit = true := by
  simp only [number, run_bind_eq_ok, run_remaining] at h
  obtain ⟨_, _, ⟨⟩, negative, r1, hsign, whole, r2, hwhole, h⟩ := h
  split at h
  · cases h
  next nonempty =>
  rw [digits, run_takeWhile] at hwhole
  cases hwhole
  obtain ⟨d, tail, hd⟩ := List.exists_cons_of_ne_nil
    (fun hnil => nonempty (List.isEmpty_iff.mpr hnil))
  have hfirst : d.isDigit = true := takeWhile_all (hd ▸ List.mem_cons_self)
  have hr1 : ∃ tail, r1 = d :: tail := by
    cases r1 with
    | nil => cases hd
    | cons c more =>
      rw [List.takeWhile_cons] at hd
      split at hd
      · cases hd; exact ⟨more, rfl⟩
      · cases hd
  obtain ⟨more, rfl⟩ := hr1
  rcases run_accept_eq_ok.mp hsign with ⟨rfl, rfl⟩ | ⟨rfl, -, rfl⟩
  · exact ⟨true, d, more, rfl, hfirst⟩
  · exact ⟨false, d, more, rfl, hfirst⟩

theorem number_intChars {mode : Mode} {i : Int} (fits : Word.fits i = true) :
    (number mode).run (Decimal.intChars i) = .ok (.integer i, []) := by
  have hdigits : ∀ d ∈ Nat.toDigits 10 i.natAbs, d.isDigit = true := fun d => isDigit_toDigits
  have hsign := accept_signChars (decide (i < 0)) hdigits Nat.toDigits_ne_nil []
  have hwhole : digits.run (Nat.toDigits 10 i.natAbs) = .ok (Nat.toDigits 10 i.natAbs, []) := by
    have hnone : ∀ c ∈ ([] : List Char).head?, c.isDigit = false := by simp
    have htake := takeWhile_append_of_all hdigits hnone
    have hdrop := dropWhile_append_of_all hdigits hnone
    rw [List.append_nil] at htake hdrop
    rw [digits, run_takeWhile, htake, hdrop]
  have hzero : hasLeadingZero (Nat.toDigits 10 i.natAbs) = false := by
    rw [Bool.eq_false_iff]
    intro h
    obtain ⟨hhead, hne⟩ := (hasLeadingZero_iff _).mp h
    exact hne (canonical_toDigits hhead).1
  rw [List.append_nil, ← intChars_eq] at hsign
  simp only [number, run_bind_eq_ok, run_remaining]
  refine ⟨_, _, rfl, _, _, hsign, _, _, hwhole, ?_⟩
  rw [if_neg (by simp [Nat.toDigits_ne_nil])]
  simp only [run_bind_eq_ok, run_remaining]
  refine ⟨[], [], rfl, none, [], rfl, [], [], rfl, ?_⟩
  rw [if_neg (by simp [hzero]), if_pos (by simpa [signed_toDigits] using fits), signed_toDigits,
    run_pure]

end JsonPath.Reader
