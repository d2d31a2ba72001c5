import JsonPath.Reader.Text

set_option autoImplicit false

/-!
# What readers answer

Equations for the readers that all constructs are built from. `run_bind_eq_ok` opens a sequence of
readers from either side: it says what a success consists of, and so also how to reach one.
-/
namespace JsonPath.Reader

variable {ε α β : Type}

theorem run_bind_eq_ok {p : Reader ε α} {f : α → Reader ε β} {input rest : List Char} {b : β} :
    (p >>= f).run input = .ok (b, rest) ↔
      ∃ a between, p.run input = .ok (a, between) ∧ (f a).run between = .ok (b, rest) := by
  constructor
  · intro h
    cases hp : p.run input with
    | error e => rw [run_bind_error hp] at h; cases h
    | ok r => exact ⟨r.1, r.2, rfl, by rw [← h, run_bind_ok hp]⟩
  · rintro ⟨a, between, hp, hf⟩
    rw [run_bind_ok hp, hf]

theorem run_map_eq_ok {p : Reader ε α} {f : α → β} {input rest : List Char} {b : β} :
    (f <$> p).run input = .ok (b, rest) ↔ ∃ a, p.run input = .ok (a, rest) ∧ f a = b := by
  change (p >>= fun a => pure (f a)).run input = _ ↔ _
  simp only [run_bind_eq_ok, run_pure, Except.ok.injEq, Prod.mk.injEq]
  constructor
  · rintro ⟨a, between, hp, rfl, rfl⟩
    exact ⟨a, hp, rfl⟩
  · rintro ⟨a, hp, rfl⟩
    exact ⟨a, rest, hp, rfl, rfl⟩

theorem run_ite (c : Prop) [Decidable c] (p q : Reader ε α) (input : List Char) :
    (if c then p else q).run input = if c then p.run input else q.run input := by
  split <;> rfl

@[simp] theorem run_remaining (input : List Char) :
    (remaining : Reader ε (List Char)).run input = .ok (input, input) := rfl

@[simp] theorem run_peek (input : List Char) :
    (peek : Reader ε (Option Char)).run input = .ok (input.head?, input) := rfl

@[simp] theorem run_skip (n : Nat) (input : List Char) :
    (skip n : Reader ε Unit).run input = .ok ((), input.drop n) := rfl

@[simp] theorem run_takeWhile (test : Char → Bool) (input : List Char) :
    (takeWhile test : Reader ε (List Char)).run input =
      .ok (input.takeWhile test, input.dropWhile test) := rfl

theorem run_accept_self (c : Char) (rest : List Char) :
    (accept c : Reader ε Bool).run (c :: rest) = .ok (true, rest) := by
  simp [accept]

theorem run_accept_other {c : Char} {input : List Char} (h : input.head? ≠ some c) :
    (accept c : Reader ε Bool).run input = .ok (false, input) := by
  cases input with
  | nil => rfl
  | cons d rest =>
    have hd : d ≠ c := by simpa using h
    simp [accept, hd]

theorem run_accept_eq_ok {c : Char} {input rest : List Char} {b : Bool} :
    (accept c : Reader ε Bool).run input = .ok (b, rest) ↔
      (b = true ∧ input = c :: rest) ∨ (b = false ∧ input.head? ≠ some c ∧ rest = input) := by
  by_cases h : input.head? = some c
  · obtain ⟨tail, rfl⟩ := List.head?_eq_some_iff.mp h
    rw [run_accept_self]
    cases b <;> simp
  · rw [run_accept_other h]
    cases b <;> simp [h, eq_comm]
    rintro rfl
    simp at h

@[simp] theorem run_failAt (rest : List Char) (cause : SyntaxError.Cause) (input : List Char) :
    (failAt rest cause : QueryReader α).run input = .error ⟨rest, cause⟩ := rfl

@[simp] theorem run_noSelector (input : List Char) :
    (noSelector : QueryReader α).run input = .error (noSelectorAt input) := rfl

@[simp] theorem run_blanks (input : List Char) :
    blanks.run input = .ok ((), input.dropWhile isBlank) := rfl

theorem run_satisfy_eq_ok {test : Char → Bool} {error : List Char → ε} {c : Char}
    {input rest : List Char} :
    (satisfy test error).run input = .ok (c, rest) ↔ input = c :: rest ∧ test c = true := by
  cases input with
  | nil => simp [satisfy]
  | cons d tail =>
    by_cases hd : test d = true <;> simp [satisfy, hd]
    · rintro rfl rfl
      exact hd
    · rintro rfl -
      simpa using hd

theorem run_satisfy_eq_error {test : Char → Bool} {error : List Char → ε} {input : List Char}
    {e : ε} (h : (satisfy test error).run input = .error e) : e = error input := by
  cases input with
  | nil =>
    cases h
    rfl
  | cons c rest =>
    dsimp only [satisfy] at h
    split at h
    · cases h
    · cases h
      rfl

theorem run_expect_eq_ok {c : Char} {u : Unit} {input rest : List Char} :
    (expect c).run input = .ok (u, rest) ↔ input = c :: rest := by
  cases input with
  | nil => simp [expect, run_bind_eq_ok, satisfy]
  | cons d tail =>
    by_cases h : d = c <;> simp [expect, run_bind_eq_ok, run_pure, satisfy, h]

theorem run_many (starts : List Char → Bool) (item : Reader ε α) (strict : item.Strict)
    (input : List Char) :
    (many starts item strict).run input = manyRun starts item strict input := rfl

theorem manyRun_stop {starts : List Char → Bool} {item : Reader ε α} {strict : item.Strict}
    {input : List Char} (h : starts input = false) :
    manyRun starts item strict input = .ok ([], input) := by
  rw [manyRun, if_neg (by simp [h])]

theorem manyRun_cons {starts : List Char → Bool} {item : Reader ε α} {strict : item.Strict}
    {input between : List Char} {a : α} (h : starts input = true)
    (ha : item.run input = .ok (a, between)) :
    manyRun starts item strict input =
      (manyRun starts item strict between).map fun r => (a :: r.1, r.2) := by
  rw [manyRun, if_pos h]
  split
  · next e he => rw [ha] at he; cases he
  · next b middle hb =>
    rw [ha] at hb
    cases hb
    split
    · next he => rw [he]; rfl
    · next hok => rw [hok]; rfl

theorem manyRun_step {starts : List Char → Bool} {item : Reader ε α} {strict : item.Strict}
    {input between rest : List Char} {a : α} {items : List α} (h : starts input = true)
    (ha : item.run input = .ok (a, between))
    (hrest : manyRun starts item strict between = .ok (items, rest)) :
    manyRun starts item strict input = .ok (a :: items, rest) := by
  rw [manyRun_cons h ha, hrest]
  rfl

theorem manyRun_error {starts : List Char → Bool} {item : Reader ε α} {strict : item.Strict}
    {input : List Char} {e : ε} (h : starts input = true) (he : item.run input = .error e) :
    manyRun starts item strict input = .error e := by
  rw [manyRun, if_pos h]
  split
  · next e' he' =>
    rw [he] at he'
    cases he'
    rfl
  · next hok =>
    rw [he] at hok
    cases hok

/-- A loop that succeeds has read its items one after the other, and none is seen to start where it
stopped. -/
theorem manyRun_induction {starts : List Char → Bool} {item : Reader ε α} {strict : item.Strict}
    {motive : List Char → List α → Prop} {rest : List Char}
    (stop : starts rest = false → motive rest [])
    (step : ∀ input a between items, starts input = true → item.run input = .ok (a, between) →
      motive between items → motive input (a :: items))
    {input : List Char} {items : List α}
    (h : manyRun starts item strict input = .ok (items, rest)) : motive input items := by
  fun_induction manyRun starts item strict input generalizing items with
  | case1 => cases h
  | case2 => cases h
  | case3 input hs a between ha items' last hm ih =>
    cases h
    exact step _ _ _ _ hs ha (ih hm)
  | case4 input hs =>
    cases h
    exact stop (by simpa using hs)

/-! Runs of characters end where the text that follows is of another kind. -/

theorem takeWhile_of_head {test : Char → Bool} {rest : List Char}
    (h : ∀ c ∈ rest.head?, test c = false) : rest.takeWhile test = [] := by
  cases rest with
  | nil => rfl
  | cons c tail => simp [h c rfl]

theorem dropWhile_of_head {test : Char → Bool} {rest : List Char}
    (h : ∀ c ∈ rest.head?, test c = false) : rest.dropWhile test = rest := by
  cases rest with
  | nil => rfl
  | cons c tail => simp [h c rfl]

theorem takeWhile_append_of_head {test : Char → Bool} {rest : List Char}
    (h : ∀ c ∈ rest.head?, test c = false) (t : List Char) :
    (t ++ rest).takeWhile test = t.takeWhile test := by
  rw [List.takeWhile_append, takeWhile_of_head h, List.append_nil]
  split
  · next hlen => exact ((List.takeWhile_prefix test).eq_of_length hlen).symm
  · rfl

theorem dropWhile_append_of_head {test : Char → Bool} {rest : List Char}
    (h : ∀ c ∈ rest.head?, test c = false) (t : List Char) :
    (t ++ rest).dropWhile test = t.dropWhile test ++ rest := by
  rw [List.dropWhile_append, dropWhile_of_head h]
  split
  · next hnil => rw [List.isEmpty_iff.mp hnil, List.nil_append]
  · rfl

theorem takeWhile_append_of_ne {test : Char → Bool} {t : List Char} (h : t.dropWhile test ≠ [])
    (rest : List Char) : (t ++ rest).takeWhile test = t.takeWhile test := by
  have hlength : (t.takeWhile test).length ≠ t.length := by
    have hsum := congrArg List.length (List.takeWhile_append_dropWhile (p := test) (l := t))
    have hpos := List.length_pos_iff.mpr h
    rw [List.length_append] at hsum
    omega
  rw [List.takeWhile_append, if_neg hlength]

theorem dropWhile_append_of_ne {test : Char → Bool} {t : List Char} (h : t.dropWhile test ≠ [])
    (rest : List Char) : (t ++ rest).dropWhile test = t.dropWhile test ++ rest := by
  rw [List.dropWhile_append, if_neg (by simpa using h)]

theorem takeWhile_append_of_all {test : Char → Bool} {t rest : List Char}
    (ht : ∀ c ∈ t, test c = true) (h : ∀ c ∈ rest.head?, test c = false) :
    (t ++ rest).takeWhile test = t := by
  rw [List.takeWhile_append_of_pos ht, takeWhile_of_head h, List.append_nil]

theorem dropWhile_append_of_all {test : Char → Bool} {t rest : List Char}
    (ht : ∀ c ∈ t, test c = true) (h : ∀ c ∈ rest.head?, test c = false) :
    (t ++ rest).dropWhile test = rest := by
  rw [List.dropWhile_append_of_pos ht, dropWhile_of_head h]

theorem head_dropWhile {test : Char → Bool} {input : List Char} {c : Char}
    (h : c ∈ (input.dropWhile test).head?) : test c = false := by
  have hnot := List.head?_dropWhile_not test input
  rw [Option.mem_def.mp h] at hnot
  simpa using hnot

theorem takeWhile_all {test : Char → Bool} {input : List Char} {c : Char}
    (h : c ∈ input.takeWhile test) : test c = true :=
  List.all_eq_true.mp (List.all_takeWhile (l := input)) c h

end JsonPath.Reader
