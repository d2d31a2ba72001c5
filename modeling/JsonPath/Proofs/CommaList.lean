import JsonPath.Proofs.Reading
import JsonPath.Proofs.Spelling

set_option autoImplicit false

/-!
# Blanks and lists with commas

Items of a list are read after any blanks, and some readers of items take blanks behind the item
too. What an item leaves is therefore compared up to blanks at its front.
-/
namespace JsonPath.Reader
open Spelling

variable {α : Type}

theorem isBlank_iff (c : Char) :
    isBlank c = true ↔ c = ' ' ∨ c = '\t' ∨ c = '\n' ∨ c = '\r' := by
  simp [isBlank, or_assoc]

theorem dropWhile_blanks {b : List Char} (hb : Blanks b) (input : List Char) :
    (b ++ input).dropWhile isBlank = input.dropWhile isBlank :=
  List.dropWhile_append_of_pos fun c hc => (isBlank_iff c).mpr (hb c hc)

theorem dropWhile_nonblank {c : Char} (hc : isBlank c = false) (rest : List Char) :
    (c :: rest).dropWhile isBlank = c :: rest := by
  rw [List.dropWhile_cons, hc]
  rfl

theorem dropWhile_blanks_cons {b : List Char} (hb : Blanks b) {c : Char} (hc : isBlank c = false)
    (rest : List Char) : (b ++ c :: rest).dropWhile isBlank = c :: rest := by
  rw [dropWhile_blanks hb, dropWhile_nonblank hc]

theorem exists_blanks (input : List Char) :
    ∃ b, Blanks b ∧ input = b ++ input.dropWhile isBlank :=
  ⟨input.takeWhile isBlank, fun c hc => (isBlank_iff c).mp (takeWhile_all hc),
    List.takeWhile_append_dropWhile.symm⟩

theorem blanks_nil : Blanks [] := by
  intro c hc
  cases hc

/-- Behind optional blanks stands what may end an item of a list. -/
def EndsItem (rest : List Char) : Prop :=
  ∃ c tail, rest.dropWhile isBlank = c :: tail ∧ (c = ',' ∨ c = ']' ∨ c = ')')

def EndsList (rest : List Char) : Prop :=
  ∃ c tail, rest.dropWhile isBlank = c :: tail ∧ (c = ']' ∨ c = ')')

theorem EndsList.endsItem {rest : List Char} (h : EndsList rest) : EndsItem rest := by
  obtain ⟨c, tail, hrest, hc⟩ := h
  exact ⟨c, tail, hrest, .inr hc⟩

theorem endsItem_comma {b : List Char} (hb : Blanks b) (rest : List Char) :
    EndsItem (b ++ ',' :: rest) :=
  ⟨',', rest, dropWhile_blanks_cons hb (by decide) rest, .inl rfl⟩

def ReadsItems (item : QueryReader α) (spelt : α → List Char → Prop) : Prop :=
  ∀ ⦃a : α⦄ ⦃t rest : List Char⦄, spelt a t → EndsItem rest →
    ∃ rest', item.run ((t ++ rest).dropWhile isBlank) = .ok (a, rest') ∧
      rest'.dropWhile isBlank = rest.dropWhile isBlank

/-- What the reader takes is a spelling of its result. -/
def Recognises (item : QueryReader α) (spelt : α → List Char → Prop) : Prop :=
  ∀ ⦃a : α⦄ ⦃input rest : List Char⦄, item.run input = .ok (a, rest) →
    ∃ t, input = t ++ rest ∧ spelt a t

theorem commaList_eq_ok_iff {item : QueryReader α} {input rest : List Char} {as : List α} :
    (commaList item).run input = .ok (as, rest) ↔
      ∃ a between later, item.run input = .ok (a, between) ∧
        manyRun commaFollows (afterComma item) (strict_afterComma item) between =
          .ok (later, rest) ∧ as = a :: later := by
  simp only [commaList, run_bind_eq_ok, run_many, run_pure, Except.ok.injEq, Prod.mk.injEq]
  constructor
  · rintro ⟨a, between, ha, later, _, hlater, rfl, rfl⟩
    exact ⟨a, between, later, ha, hlater, rfl⟩
  · rintro ⟨a, between, later, ha, hlater, rfl⟩
    exact ⟨a, between, ha, later, rest, hlater, rfl, rfl⟩

theorem afterComma_eq_ok_iff {item : QueryReader α} {input rest : List Char} {a : α} :
    (afterComma item).run input = .ok (a, rest) ↔
      ∃ tail, input.dropWhile isBlank = ',' :: tail ∧
        item.run (tail.dropWhile isBlank) = .ok (a, rest) := by
  simp only [afterComma, run_bind_eq_ok, run_blanks, run_expect_eq_ok, Except.ok.injEq,
    Prod.mk.injEq]
  constructor
  · rintro ⟨_, _, ⟨-, rfl⟩, _, tail, htail, _, _, ⟨-, rfl⟩, ha⟩
    exact ⟨tail, htail, ha⟩
  · rintro ⟨tail, htail, ha⟩
    exact ⟨(), _, ⟨trivial, rfl⟩, (), tail, htail, (), _, ⟨trivial, rfl⟩, ha⟩

theorem manyRun_comma {item : QueryReader α} {between tail : List Char}
    (hcomma : between.dropWhile isBlank = ',' :: tail) :
    manyRun commaFollows (afterComma item) (strict_afterComma item) between =
      (commaList item).run (tail.dropWhile isBlank) := by
  have hfollows : commaFollows between = true := by
    rw [commaFollows, hcomma]
    rfl
  have hexpect : (expect ',').run (',' :: tail) = .ok ((), tail) := run_expect_eq_ok.mpr rfl
  have hafter : (afterComma item).run between = item.run (tail.dropWhile isBlank) := by
    rw [afterComma, run_bind_ok (run_blanks _), hcomma, run_bind_ok hexpect,
      run_bind_ok (run_blanks _)]
  cases hitem : item.run (tail.dropWhile isBlank) with
  | error e => rw [manyRun_error hfollows (hafter.trans hitem), commaList, run_bind_error hitem]
  | ok r =>
    obtain ⟨a, middle⟩ := r
    rw [manyRun_cons hfollows (hafter.trans hitem), commaList, run_bind_ok hitem]
    cases hmany : manyRun commaFollows (afterComma item) (strict_afterComma item) middle with
    | error e =>
      rw [← run_many] at hmany
      rw [run_bind_error hmany]
      rfl
    | ok result =>
      obtain ⟨later, last⟩ := result
      rw [← run_many] at hmany
      rw [run_bind_ok hmany]
      rfl

theorem commaList_run {item : QueryReader α} {spelt : α → List Char → Prop}
    (hitem : ReadsItems item spelt) {as : List α} {t rest : List Char} (h : OfList spelt as t)
    (hrest : EndsList rest) :
    ∃ rest', (commaList item).run ((t ++ rest).dropWhile isBlank) = .ok (as, rest') ∧
      rest'.dropWhile isBlank = rest.dropWhile isBlank := by
  induction h with
  | one ha =>
    obtain ⟨rest', hrun, hsame⟩ := hitem ha hrest.endsItem
    refine ⟨rest', commaList_eq_ok_iff.mpr ⟨_, rest', [], hrun, manyRun_stop ?_, rfl⟩, hsame⟩
    obtain ⟨c, tail, hc, rfl | rfl⟩ := hrest <;> rw [commaFollows, hsame, hc] <;> rfl
  | @more a as t ts b b' ha hb hb' _ ih =>
    obtain ⟨between, hrun, hsame⟩ := hitem ha (endsItem_comma hb (b' ++ (ts ++ rest)))
    obtain ⟨rest', hlist, hsame'⟩ := ih
    have hcomma : between.dropWhile isBlank = ',' :: (b' ++ (ts ++ rest)) := by
      rw [hsame, dropWhile_blanks_cons hb (by decide)]
    rw [← dropWhile_blanks hb', ← manyRun_comma hcomma] at hlist
    refine ⟨rest', commaList_eq_ok_iff.mpr ⟨a, between, as, ?_, hlist, rfl⟩, hsame'⟩
    simpa using hrun

theorem commaList_sound {item : QueryReader α} {spelt : α → List Char → Prop}
    (hitem : Recognises item spelt) : Recognises (commaList item) (OfList spelt) := by
  intro as input rest h
  obtain ⟨a, between, later, ha, hlater, rfl⟩ := commaList_eq_ok_iff.mp h
  -- the loop starts behind an item, and each item it reads extends the spelling that ends there
  have hmany : ∀ a t, spelt a t →
      ∃ t', t ++ between = t' ++ rest ∧ OfList spelt (a :: later) t' := by
    refine manyRun_induction (motive := fun between later => ∀ a t, spelt a t →
      ∃ t', t ++ between = t' ++ rest ∧ OfList spelt (a :: later) t') ?_ ?_ hlater
    · exact fun _ a t ht => ⟨t, rfl, .one ht⟩
    · intro input a' between' later _ hrun ih a t ht
      obtain ⟨tail, htail, ha'⟩ := afterComma_eq_ok_iff.mp hrun
      obtain ⟨t', ht', hspelt⟩ := hitem ha'
      obtain ⟨ts, hts, hlist⟩ := ih a' t' hspelt
      obtain ⟨b, hb, hinput⟩ := exists_blanks input
      obtain ⟨b', hb', htail'⟩ := exists_blanks tail
      refine ⟨t ++ (b ++ ',' :: (b' ++ ts)), ?_, .more ht hb hb' hlist⟩
      calc
        t ++ input = t ++ (b ++ ',' :: (b' ++ tail.dropWhile isBlank)) := by
          rw [← htail', ← htail, ← hinput]
        _ = t ++ (b ++ ',' :: (b' ++ (ts ++ rest))) := by rw [ht', hts]
        _ = _ := by simp
  obtain ⟨t, rfl, ht⟩ := hitem ha
  exact hmany a t ht

end JsonPath.Reader
