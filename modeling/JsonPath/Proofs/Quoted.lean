import JsonPath.Proofs.Reading
import JsonPath.Proofs.Spelling

set_option autoImplicit false

/-!
# Strings between quotes

A string is read from exactly its spellings, whatever follows its closing quote. Among them is the
one that canonical queries use.
-/
namespace JsonPath.Reader
open Spelling

theorem hexValue?_hexChar (n : Nat) : Digit.hexValue? (Digit.hexChar n) = some (n % 16) := by
  have h : ∀ d : Fin 16, Digit.hexValue? (Nat.digitChar d) = some d.val := by decide
  exact h ⟨n % 16, Nat.mod_lt n (by decide)⟩

theorem hexValue?_lt {c : Char} {v : Nat} (h : Digit.hexValue? c = some v) : v < 16 := by
  have hle : ∀ d : Char, c ≤ d ↔ c.toNat ≤ d.toNat := fun d => by
    rw [Char.le_def, UInt32.le_iff_toNat_le]
    rfl
  unfold Digit.hexValue? at h
  split at h
  · next hd =>
    simp only [Char.isDigit, Bool.and_eq_true, decide_eq_true_eq, UInt32.le_iff_toNat_le] at hd
    cases h
    have h9 : c.toNat ≤ '9'.toNat := hd.2
    have : '9'.toNat = 57 := rfl
    have : '0'.toNat = 48 := rfl
    omega
  split at h
  · next hd =>
    simp only [Bool.and_eq_true, decide_eq_true_eq, hle] at hd
    cases h
    have : 'f'.toNat = 102 := rfl
    have : 'a'.toNat = 97 := rfl
    omega
  split at h
  · next hd =>
    simp only [Bool.and_eq_true, decide_eq_true_eq, hle] at hd
    cases h
    have : 'F'.toNat = 70 := rfl
    have : 'A'.toNat = 65 := rfl
    omega
  · cases h

theorem fourHex?_eq_some_iff {n : Nat} {input : List Char} :
    fourHex? input = some n ↔ ∃ t rest, input = t ++ rest ∧ OfUnit n t := by
  constructor
  · intro h
    match input with
    | a :: b :: c :: d :: rest =>
      simp only [fourHex?, Option.bind_eq_bind, Option.bind_eq_some_iff, Option.pure_def,
        Option.some.injEq] at h
      obtain ⟨w, ha, x, hb, y, hc, z, hd, rfl⟩ := h
      exact ⟨[a, b, c, d], rest, rfl, .digits ha hb hc hd⟩
    | [] | [_] | [_, _] | [_, _, _] => cases h
  · rintro ⟨_, rest, rfl, h⟩
    cases h with
    | digits ha hb hc hd => simp [fourHex?, ha, hb, hc, hd]

theorem length_of_ofUnit {n : Nat} {t : List Char} (h : OfUnit n t) : t.length = 4 := by
  cases h
  rfl

theorem ofUnit_lt {n : Nat} {t : List Char} (h : OfUnit n t) : n < 0x10000 := by
  cases h with
  | digits ha hb hc hd =>
    have := hexValue?_lt ha
    have := hexValue?_lt hb
    have := hexValue?_lt hc
    have := hexValue?_lt hd
    omega

theorem isHighSurrogate_iff (n : Nat) : isHighSurrogate n = true ↔ 0xD800 ≤ n ∧ n ≤ 0xDBFF := by
  simp [isHighSurrogate]

theorem isLowSurrogate_iff (n : Nat) : isLowSurrogate n = true ↔ 0xDC00 ≤ n ∧ n ≤ 0xDFFF := by
  simp [isLowSurrogate]

theorem char_bounds (c : Char) :
    c.toNat < 0xD800 ∨ 0xDFFF < c.toNat ∧ c.toNat < 0x110000 := c.valid

theorem toNat_ofNat {n : Nat} (h : n < 0xD800 ∨ 0xDFFF < n ∧ n < 0x110000) :
    (Char.ofNat n).toNat = n := by
  have hvalid : n.isValidChar := h
  rw [Char.ofNat, dif_pos hvalid]
  rfl

theorem joinSurrogates_split {n : Nat} (h : 0x10000 ≤ n) :
    joinSurrogates (highSurrogate n) (lowSurrogate n) = n := by
  unfold joinSurrogates highSurrogate lowSurrogate
  omega

theorem isHighSurrogate_split {n : Nat} (h : 0x10000 ≤ n) (h' : n < 0x110000) :
    isHighSurrogate (highSurrogate n) = true := by
  rw [isHighSurrogate_iff]
  unfold highSurrogate
  omega

theorem isLowSurrogate_split (n : Nat) : isLowSurrogate (lowSurrogate n) = true := by
  rw [isLowSurrogate_iff]
  unfold lowSurrogate
  omega

theorem split_joinSurrogates {high low : Nat} (hh : isHighSurrogate high = true)
    (hl : isLowSurrogate low = true) :
    0x10000 ≤ joinSurrogates high low ∧ joinSurrogates high low < 0x110000 ∧
      highSurrogate (joinSurrogates high low) = high ∧
      lowSurrogate (joinSurrogates high low) = low := by
  rw [isHighSurrogate_iff] at hh
  rw [isLowSurrogate_iff] at hl
  unfold joinSurrogates highSurrogate lowSurrogate
  omega

theorem unicode?_unit {c : Char} {t : List Char} (h : OfUnit c.toNat t) (rest : List Char) :
    unicode? (t ++ rest) = some (c, 4) := by
  have hcode := fourHex?_eq_some_iff.mpr ⟨t, rest, rfl, h⟩
  have hbounds := char_bounds c
  have hhigh : ¬ isHighSurrogate c.toNat = true := by rw [isHighSurrogate_iff]; omega
  have hlow : ¬ isLowSurrogate c.toNat = true := by rw [isLowSurrogate_iff]; omega
  simp [unicode?, hcode, hhigh, hlow]

theorem unicode?_surrogates {high low : Nat} {t t' : List Char} (hh : OfUnit high t)
    (hl : OfUnit low t') (hhigh : isHighSurrogate high = true) (hlow : isLowSurrogate low = true)
    (rest : List Char) :
    unicode? (t ++ '\\' :: 'u' :: (t' ++ rest)) =
      some (Char.ofNat (joinSurrogates high low), 10) := by
  have hcode := fourHex?_eq_some_iff.mpr ⟨t, '\\' :: 'u' :: (t' ++ rest), rfl, hh⟩
  have hcode' := fourHex?_eq_some_iff.mpr ⟨t', rest, rfl, hl⟩
  have hdrop : (t ++ '\\' :: 'u' :: (t' ++ rest)).drop 4 = '\\' :: 'u' :: (t' ++ rest) := by
    rw [← length_of_ofUnit hh, List.drop_left]
  simp [unicode?, hcode, hcode', hdrop, hhigh, hlow]

theorem unicode?_pair {c : Char} {t t' : List Char} (hc : 0x10000 ≤ c.toNat)
    (hh : OfUnit (highSurrogate c.toNat) t) (hl : OfUnit (lowSurrogate c.toNat) t')
    (rest : List Char) : unicode? (t ++ '\\' :: 'u' :: (t' ++ rest)) = some (c, 10) := by
  have hbounds := char_bounds c
  have hhigh := isHighSurrogate_split hc (by omega)
  have hlow := isLowSurrogate_split c.toNat
  rw [unicode?_surrogates hh hl hhigh hlow, joinSurrogates_split hc, Char.ofNat_toNat]

theorem unicode?_sound {input : List Char} {c : Char} {n : Nat}
    (h : unicode? input = some (c, n)) :
    ∃ t rest, input = t ++ rest ∧ n = t.length ∧
      ∀ mode quote, OfCharacter mode quote c ('\\' :: 'u' :: t) := by
  simp only [unicode?, Option.bind_eq_bind, Option.bind_eq_some_iff] at h
  obtain ⟨code, hcode, h⟩ := h
  obtain ⟨t, rest, rfl, ht⟩ := fourHex?_eq_some_iff.mp hcode
  have hlength := length_of_ofUnit ht
  split at h
  next hhigh =>
    rw [← hlength, List.drop_left] at h
    split at h
    next more =>
      obtain ⟨low, hlow, h'⟩ := Option.bind_eq_some_iff.mp h
      clear h
      obtain ⟨t', rest', rfl, ht'⟩ := fourHex?_eq_some_iff.mp hlow
      have hlength' := length_of_ofUnit ht'
      split at h'
      next hislow =>
        simp only [Option.some.injEq, Prod.mk.injEq] at h'
        obtain ⟨rfl, rfl⟩ := h'
        obtain ⟨hbeyond, hbound, hsplit, hsplit'⟩ := split_joinSurrogates hhigh hislow
        have hcode' := toNat_ofNat (.inr ⟨by omega, hbound⟩)
        refine ⟨t ++ '\\' :: 'u' :: t', rest', by simp, by simp [hlength, hlength'], ?_⟩
        intro mode quote
        exact .pair (by omega) (by rwa [hcode', hsplit]) (by rwa [hcode', hsplit'])
      · cases h'
    · cases h
  next hhigh =>
    split at h
    · cases h
    next hlow =>
      cases h
      have hbound := ofUnit_lt ht
      rw [isHighSurrogate_iff] at hhigh
      rw [isLowSurrogate_iff] at hlow
      have hcode' : (Char.ofNat code).toNat = code := toNat_ofNat (by omega)
      exact ⟨t, rest, rfl, hlength.symm, fun mode quote => .unit (by rwa [hcode'])⟩

theorem shortEscape?_of_mem {mode : Mode} {quote letter c : Char}
    (h : (letter, c) ∈ shortForms) : letter ≠ 'u' ∧ shortEscape? mode quote letter = some c := by
  simp only [shortForms, List.mem_cons, Prod.mk.injEq, List.not_mem_nil, or_false] at h
  obtain ⟨rfl, rfl⟩ | ⟨rfl, rfl⟩ | ⟨rfl, rfl⟩ | ⟨rfl, rfl⟩ | ⟨rfl, rfl⟩ | ⟨rfl, rfl⟩ |
    ⟨rfl, rfl⟩ := h
  all_goals exact ⟨by decide, rfl⟩

theorem shortEscape?_quotation {mode : Mode} {quote c : Char} (hq : quote = '\'' ∨ quote = '"')
    (h : c = quote ∨ mode = .lenient ∧ (c = '\'' ∨ c = '"')) :
    c ≠ 'u' ∧ shortEscape? mode quote c = some c := by
  rcases h with rfl | ⟨rfl, rfl | rfl⟩
  · rcases hq with rfl | rfl <;> exact ⟨by decide, by simp [shortEscape?]⟩
  · exact ⟨by decide, by simp [shortEscape?]⟩
  · exact ⟨by decide, by simp [shortEscape?]⟩

theorem ofCharacter_of_shortEscape? {mode : Mode} {quote letter c : Char}
    (h : shortEscape? mode quote letter = some c) :
    OfCharacter mode quote c ['\\', letter] := by
  unfold shortEscape? at h
  split at h
  case h_8 =>
    split at h
    · next hq =>
      cases h
      exact .quotation (by simpa using hq)
    · cases h
  all_goals
    cases h
    exact .short (by decide)

theorem escape_unicode_eq_ok_iff {mode : Mode} {quote c : Char} {code rest : List Char} :
    (escape mode quote).run ('\\' :: 'u' :: code) = .ok (c, rest) ↔
      ∃ n, unicode? code = some (c, n) ∧ rest = code.drop n := by
  have hnext : next.run ('\\' :: 'u' :: code) = .ok ('\\', 'u' :: code) := rfl
  rw [escape, run_bind_ok (run_remaining _), run_bind_ok hnext, run_bind_ok (run_remaining _)]
  cases hcode : unicode? code with
  | none => simp [hcode]
  | some r =>
    obtain ⟨d, n⟩ := r
    simp only [hcode]
    change Except.ok (d, code.drop n) = _ ↔ _
    constructor
    · intro h
      cases h
      exact ⟨n, rfl, rfl⟩
    · rintro ⟨_, ⟨⟩, rfl⟩
      rfl

theorem escape_short_eq_ok_iff {mode : Mode} {quote letter c : Char} {rest rest' : List Char}
    (hu : letter ≠ 'u') :
    (escape mode quote).run ('\\' :: letter :: rest) = .ok (c, rest') ↔
      shortEscape? mode quote letter = some c ∧ rest' = rest := by
  have hnext : next.run ('\\' :: letter :: rest) = .ok ('\\', letter :: rest) := rfl
  rw [escape, run_bind_ok (run_remaining _), run_bind_ok hnext, run_bind_ok (run_remaining _)]
  split
  · next heq => cases heq
  · next heq => cases heq; exact absurd rfl hu
  · next heq =>
    cases heq
    cases shortEscape? mode quote letter with
    | none => simp
    | some d =>
      change Except.ok (d, rest) = _ ↔ _
      constructor
      · intro h
        cases h
        exact ⟨rfl, rfl⟩
      · rintro ⟨⟨⟩, rfl⟩
        rfl

theorem stringChar_escape (mode : Mode) (quote : Char) (input : List Char) :
    (stringChar mode quote).run ('\\' :: input) = (escape mode quote).run ('\\' :: input) := rfl

theorem stringChar_plain (mode : Mode) (quote : Char) {c : Char} (rest : List Char)
    (hc : c ≠ '\\') : (stringChar mode quote).run (c :: rest) = .ok (c, rest) := by
  rw [stringChar, run_bind_ok (run_peek _)]
  split
  · next h => exact absurd (Option.some.inj h) hc
  · rfl

theorem stringChar_run {mode : Mode} {quote c : Char} {t : List Char}
    (hq : quote = '\'' ∨ quote = '"') (h : OfCharacter mode quote c t) (rest : List Char) :
    (stringChar mode quote).run (t ++ rest) = .ok (c, rest) := by
  cases h with
  | itself _ _ hb => exact stringChar_plain mode quote rest hb
  | short h =>
    obtain ⟨hu, hs⟩ := shortEscape?_of_mem h
    exact (escape_short_eq_ok_iff hu).mpr ⟨hs, rfl⟩
  | quotation h =>
    obtain ⟨hu, hs⟩ := shortEscape?_quotation hq h
    exact (escape_short_eq_ok_iff hu).mpr ⟨hs, rfl⟩
  | @unit _ t h =>
    change (escape mode quote).run ('\\' :: 'u' :: (t ++ rest)) = _
    refine escape_unicode_eq_ok_iff.mpr ⟨4, unicode?_unit h rest, ?_⟩
    rw [← length_of_ofUnit h, List.drop_left]
  | @pair _ high low hc hh hl =>
    have hlength : (high ++ '\\' :: 'u' :: low).length = 10 := by
      simp [length_of_ofUnit hh, length_of_ofUnit hl]
    have hcode := unicode?_pair hc hh hl rest
    have hsplit : high ++ '\\' :: 'u' :: (low ++ rest) = high ++ '\\' :: 'u' :: low ++ rest := by
      simp
    rw [hsplit] at hcode
    change (escape mode quote).run ('\\' :: 'u' :: (high ++ '\\' :: 'u' :: low ++ rest)) = _
    refine escape_unicode_eq_ok_iff.mpr ⟨10, hcode, ?_⟩
    rw [← hlength, List.drop_left]

theorem stringGoesOn_iff {quote : Char} {input : List Char} :
    stringGoesOn quote input = true ↔ ∃ c tail, input = c :: tail ∧ c ≠ quote ∧ ' ' ≤ c := by
  cases input with
  | nil => simp [stringGoesOn]
  | cons c tail => simp [stringGoesOn]

theorem stringGoesOn_append {mode : Mode} {quote c : Char} {t : List Char}
    (hq : quote = '\'' ∨ quote = '"') (h : OfCharacter mode quote c t) (rest : List Char) :
    stringGoesOn quote (t ++ rest) = true := by
  have hslash : '\\' ≠ quote := by
    rcases hq with rfl | rfl <;> decide
  cases h with
  | itself hc hne _ => exact stringGoesOn_iff.mpr ⟨c, rest, rfl, hne, hc⟩
  | _ => exact stringGoesOn_iff.mpr ⟨'\\', _, rfl, hslash, by decide⟩

theorem stringChar_sound {mode : Mode} {quote c : Char} {input rest : List Char}
    (hgoes : stringGoesOn quote input = true)
    (h : (stringChar mode quote).run input = .ok (c, rest)) :
    ∃ t, input = t ++ rest ∧ OfCharacter mode quote c t := by
  obtain ⟨d, tail, rfl, hd, hspace⟩ := stringGoesOn_iff.mp hgoes
  by_cases hslash : d = '\\'
  · subst hslash
    rw [stringChar_escape] at h
    cases tail with
    | nil => cases h
    | cons letter tail =>
      by_cases hu : letter = 'u'
      · subst hu
        obtain ⟨n, hcode, rfl⟩ := escape_unicode_eq_ok_iff.mp h
        obtain ⟨t, rest, rfl, rfl, ht⟩ := unicode?_sound hcode
        exact ⟨'\\' :: 'u' :: t, by rw [List.drop_left]; rfl, ht mode quote⟩
      · obtain ⟨hs, rfl⟩ := (escape_short_eq_ok_iff hu).mp h
        exact ⟨['\\', letter], rfl, ofCharacter_of_shortEscape? hs⟩
  · rw [stringChar_plain mode quote tail hslash] at h
    cases h
    exact ⟨[c], rfl, .itself hspace hd hslash⟩

theorem stringChars_run {mode : Mode} {quote : Char} {cs t : List Char}
    (hq : quote = '\'' ∨ quote = '"') (h : OfCharacters mode quote cs t) (rest : List Char) :
    manyRun (stringGoesOn quote) (stringChar mode quote) (strict_stringChar mode quote)
      (t ++ quote :: rest) = .ok (cs, quote :: rest) := by
  induction h with
  | nil => exact manyRun_stop (by simp [stringGoesOn])
  | cons hc _ ih =>
    rw [List.append_assoc]
    exact manyRun_step (stringGoesOn_append hq hc _) (stringChar_run hq hc _) ih

theorem stringLiteral_run {mode : Mode} {s : String} {t : List Char} (h : OfString mode s t)
    (rest : List Char) : (stringLiteral mode).run (t ++ rest) = .ok (s, rest) := by
  cases h with
  | @quoted t quote hq ht =>
    have hsplit : quote :: (t ++ [quote]) ++ rest = quote :: (t ++ quote :: rest) := by simp
    have hnext : next.run (quote :: (t ++ quote :: rest)) = .ok (quote, t ++ quote :: rest) := rfl
    rw [hsplit, stringLiteral, run_bind_ok (run_remaining _), run_bind_ok hnext,
      run_bind_ok (stringChars_run hq ht rest), run_bind_ok (run_remaining _)]
    simp only [if_true]
    rw [run_bind_ok (run_skip _ _), run_pure, String.ofList_toList]
    rfl

theorem stringChars_sound {mode : Mode} {quote : Char} {cs input rest : List Char}
    (h : manyRun (stringGoesOn quote) (stringChar mode quote) (strict_stringChar mode quote) input =
      .ok (cs, rest)) : ∃ t, input = t ++ rest ∧ OfCharacters mode quote cs t := by
  refine manyRun_induction (motive := fun input cs =>
    ∃ t, input = t ++ rest ∧ OfCharacters mode quote cs t) ?_ ?_ h
  · exact fun _ => ⟨[], rfl, .nil⟩
  · rintro input c _ cs hgoes hc ⟨ts, rfl, hts⟩
    obtain ⟨t, rfl, ht⟩ := stringChar_sound hgoes hc
    exact ⟨t ++ ts, (List.append_assoc ..).symm, .cons ht hts⟩

theorem stringLiteral_sound {mode : Mode} {s : String} {quote : Char} {input rest : List Char}
    (hq : quote = '\'' ∨ quote = '"')
    (h : (stringLiteral mode).run (quote :: input) = .ok (s, rest)) :
    ∃ t, quote :: input = t ++ rest ∧ OfString mode s t := by
  have hnext : next.run (quote :: input) = .ok (quote, input) := rfl
  rw [stringLiteral, run_bind_ok (run_remaining _), run_bind_ok hnext, run_bind_eq_ok] at h
  obtain ⟨cs, between, hcs, h⟩ := h
  rw [run_bind_ok (run_remaining _)] at h
  obtain ⟨t, rfl, ht⟩ := stringChars_sound hcs
  split at h
  · cases h
  next c tail =>
  rw [run_ite] at h
  split at h
  next hc =>
    subst hc
    rw [run_bind_ok (run_skip _ _), run_pure] at h
    cases h
    exact ⟨c :: (t ++ [c]), by simp, .quoted c hq (by rwa [String.toList_ofList])⟩
  · cases h

theorem ofCharacter_spelling (mode : Mode) (c : Char) :
    OfCharacter mode '\'' c (Name.spelling c) := by
  unfold Name.spelling
  split
  case h_8 hquote hslash _ _ _ _ _ =>
    split
    next hc =>
      have hlt : c.toNat < 32 := UInt32.lt_iff_toNat_lt.mp hc
      have hzero : Digit.hexValue? '0' = some 0 := rfl
      have hunit := OfUnit.digits hzero hzero (hexValue?_hexChar (c.toNat / 16))
        (hexValue?_hexChar c.toNat)
      have hcode : ((0 * 16 + 0) * 16 + c.toNat / 16 % 16) * 16 + c.toNat % 16 = c.toNat := by omega
      rw [hcode] at hunit
      exact .unit hunit
    next hc => exact .itself (Char.not_lt.mp hc) hquote hslash
  case h_1 => exact .quotation (.inl rfl)
  all_goals exact .short (by decide)

theorem ofString_quotedChars (mode : Mode) (name : String) :
    OfString mode name (Name.quotedChars name) := by
  refine .quoted '\'' (.inl rfl) ?_
  induction name.toList with
  | nil => exact .nil
  | cons c cs ih => exact .cons (ofCharacter_spelling mode c) ih

end JsonPath.Reader
