set_option autoImplicit false

/-!
# Readers

A reader takes a construct off the front of a list of characters and leaves the rest, or fails. What
it leaves is always a suffix of what it was given, so a loop whose body takes at least one character
ends.
-/
namespace JsonPath

structure Reader (ε α : Type) where
  run : List Char → Except ε (α × List Char)
  rest_suffix : ∀ {input : List Char} {a : α} {rest : List Char},
    run input = .ok (a, rest) → rest <:+ input

namespace Reader

variable {ε α β σ : Type}

theorem rest_length_le (p : Reader ε α) {input : List Char} {a : α} {rest : List Char}
    (h : p.run input = .ok (a, rest)) : rest.length ≤ input.length :=
  (p.rest_suffix h).length_le

def done (a : α) : Reader ε α where
  run input := .ok (a, input)
  rest_suffix h := by cases h; exact List.suffix_refl _

def andThen (p : Reader ε α) (f : α → Reader ε β) : Reader ε β where
  run input :=
    match p.run input with
    | .error e => .error e
    | .ok (a, rest) => (f a).run rest
  rest_suffix {input b rest} h := by
    split at h
    · cases h
    · next a between hp => exact ((f a).rest_suffix h).trans (p.rest_suffix hp)

instance : Monad (Reader ε) where
  pure := done
  bind := andThen

theorem run_pure (a : α) (input : List Char) :
    (pure a : Reader ε α).run input = .ok (a, input) := rfl

theorem run_bind_ok {p : Reader ε α} {f : α → Reader ε β} {input rest : List Char} {a : α}
    (h : p.run input = .ok (a, rest)) : (p >>= f).run input = (f a).run rest := by
  show (p.andThen f).run input = _
  simp [andThen, h]

theorem run_bind_error {p : Reader ε α} {f : α → Reader ε β} {input : List Char} {e : ε}
    (h : p.run input = .error e) : (p >>= f).run input = .error e := by
  show (p.andThen f).run input = _
  simp [andThen, h]

def fail (e : ε) : Reader ε α where
  run _ := .error e
  rest_suffix h := by cases h

def remaining : Reader ε (List Char) where
  run input := .ok (input, input)
  rest_suffix h := by cases h; exact List.suffix_refl _

def peek : Reader ε (Option Char) where
  run input := .ok (input.head?, input)
  rest_suffix h := by cases h; exact List.suffix_refl _

def skip (n : Nat) : Reader ε Unit where
  run input := .ok ((), input.drop n)
  rest_suffix h := by cases h; exact List.drop_suffix _ _

def takeWhile (test : Char → Bool) : Reader ε (List Char) where
  run input := .ok (input.takeWhile test, input.dropWhile test)
  rest_suffix h := by cases h; exact List.dropWhile_suffix _

/-- Reads the given character if it is next, and says whether it was. -/
def accept (c : Char) : Reader ε Bool where
  run input :=
    match input with
    | [] => .ok (false, [])
    | d :: rest => if d = c then .ok (true, rest) else .ok (false, d :: rest)
  rest_suffix {input _ _} h := by
    cases input with
    | nil => cases h; exact List.suffix_refl _
    | cons d rest =>
      dsimp only at h
      split at h
      · cases h; exact List.suffix_cons _ _
      · cases h; exact List.suffix_refl _

/-- Reads a character of which the test holds. The error depends on what stands there instead. -/
def satisfy (test : Char → Bool) (error : List Char → ε) : Reader ε Char where
  run input :=
    match input with
    | [] => .error (error [])
    | c :: rest => if test c then .ok (c, rest) else .error (error (c :: rest))
  rest_suffix {input _ _} h := by
    cases input with
    | nil => cases h
    | cons c rest =>
      dsimp only at h
      split at h
      · cases h; exact List.suffix_cons _ _
      · cases h

/-- Every success takes at least one character. -/
def Strict (p : Reader ε α) : Prop :=
  ∀ ⦃input : List Char⦄ ⦃a : α⦄ ⦃rest : List Char⦄,
    p.run input = .ok (a, rest) → rest.length < input.length

theorem strict_satisfy (test : Char → Bool) (error : List Char → ε) :
    (satisfy test error).Strict := by
  intro input c rest h
  cases input with
  | nil => cases h
  | cons d tail =>
    dsimp only [satisfy] at h
    split at h
    · cases h; simp
    · cases h

theorem strict_fail (e : ε) : (fail e : Reader ε α).Strict := by
  intro input a r h
  cases h

theorem Strict.bind_left {p : Reader ε α} (hp : p.Strict) (f : α → Reader ε β) :
    (p >>= f).Strict := by
  intro input b rest h
  cases hr : p.run input with
  | error e => rw [run_bind_error hr] at h; cases h
  | ok r =>
    obtain ⟨a, between⟩ := r
    rw [run_bind_ok hr] at h
    exact Nat.lt_of_le_of_lt ((f a).rest_length_le h) (hp hr)

theorem Strict.bind_right (p : Reader ε α) {f : α → Reader ε β} (hf : ∀ a, (f a).Strict) :
    (p >>= f).Strict := by
  intro input b rest h
  cases hr : p.run input with
  | error e => rw [run_bind_error hr] at h; cases h
  | ok r =>
    obtain ⟨a, between⟩ := r
    rw [run_bind_ok hr] at h
    exact Nat.lt_of_lt_of_le (hf a h) (p.rest_length_le hr)

theorem Strict.map {p : Reader ε α} (hp : p.Strict) (f : α → β) : (f <$> p).Strict :=
  hp.bind_left fun a => done (f a)

/-- Reads items for as long as one is seen to start. -/
def manyRun (starts : List Char → Bool) (item : Reader ε α) (strict : item.Strict)
    (input : List Char) : Except ε (List α × List Char) :=
  if starts input then
    match _taken : item.run input with
    | .error e => .error e
    | .ok (a, rest) =>
      match manyRun starts item strict rest with
      | .error e => .error e
      | .ok (items, last) => .ok (a :: items, last)
  else .ok ([], input)
termination_by input.length
decreasing_by exact strict _taken

theorem manyRun_suffix (starts : List Char → Bool) (item : Reader ε α) (strict : item.Strict)
    {input rest : List Char} {items : List α}
    (h : manyRun starts item strict input = .ok (items, rest)) : rest <:+ input := by
  fun_induction manyRun starts item strict input generalizing items with
  | case1 => cases h
  | case2 => cases h
  | case3 input _ a between hi items' last hm ih =>
    cases h
    exact (ih hm).trans (item.rest_suffix hi)
  | case4 => cases h; exact List.suffix_refl _

def many (starts : List Char → Bool) (item : Reader ε α) (strict : item.Strict) :
    Reader ε (List α) where
  run := manyRun starts item strict
  rest_suffix h := manyRun_suffix starts item strict h

/-- Repeats a step, which passes on a state, for as long as the state and the text ask for it. -/
def loopRun (goesOn : σ → List Char → Bool) (step : σ → Reader ε σ)
    (strict : ∀ s, (step s).Strict) (s : σ) (input : List Char) : Except ε (σ × List Char) :=
  if goesOn s input then
    match _taken : (step s).run input with
    | .error e => .error e
    | .ok (s', rest) => loopRun goesOn step strict s' rest
  else .ok (s, input)
termination_by input.length
decreasing_by exact strict s _taken

theorem loopRun_suffix (goesOn : σ → List Char → Bool) (step : σ → Reader ε σ)
    (strict : ∀ s, (step s).Strict) {s last : σ} {input rest : List Char}
    (h : loopRun goesOn step strict s input = .ok (last, rest)) : rest <:+ input := by
  fun_induction loopRun goesOn step strict s input with
  | case1 => cases h
  | case2 s input _ s' between hs ih => exact (ih h).trans ((step s).rest_suffix hs)
  | case3 => cases h; exact List.suffix_refl _

def loop (goesOn : σ → List Char → Bool) (step : σ → Reader ε σ)
    (strict : ∀ s, (step s).Strict) (s : σ) : Reader ε σ where
  run := loopRun goesOn step strict s
  rest_suffix h := loopRun_suffix goesOn step strict h

end Reader
end JsonPath
