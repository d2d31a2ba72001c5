import JsonPath.Standard
import JsonPath.Evaluation
import Mathlib.Data.Int.ModEq

set_option autoImplicit false

/-!
# Integers modulo 2 to the 64

Sums, differences, products and negatives of 64-bit integers are reduced at every operator. That
comes to the same as one reduction of the value over the unbounded integers at the end, since each
of these operations keeps congruence.
-/
namespace JsonPath

namespace Word

theorem fits_iff_range (n : Int) : fits n = true ↔ -2 ^ 63 ≤ n ∧ n < 2 ^ 63 := by
  rw [fits_iff, least, greatest]
  omega

theorem wrap_range (n : Int) : -2 ^ 63 ≤ wrap n ∧ wrap n < 2 ^ 63 :=
  (fits_iff_range _).mp (fits_wrap n)

theorem wrap_modEq (n : Int) : wrap n ≡ n [ZMOD 2 ^ 64] := by
  rw [Int.ModEq, wrap]
  exact Int.bmod_emod

theorem wrap_congr {m n : Int} (h : m ≡ n [ZMOD 2 ^ 64]) : wrap m = wrap n := by
  rw [Int.ModEq] at h
  rw [wrap, wrap, ← Int.emod_bmod m, ← Int.emod_bmod n]
  exact congrArg (Int.bmod · _) h

end Word

/-- An integer of 64 bits, a singular query that selects one, or a sum, difference, product or
negative of such expressions, with its value over the unbounded integers. -/
inductive Expr.Exact (ctx : Context) (current : Json) : Expr → Int → Prop
  | literal {n : Int} (h : Word.fits n = true) : Exact ctx current (.integer n) n
  | query {p : Path} {l : Location} {n : Int} (hp : p.isSingular = true)
      (hselect : p.select ctx (Node.root current) = .ok [⟨l, .integer n⟩])
      (h : Word.fits n = true) : Exact ctx current (.singular p) n
  | negate {e : Expr} {a : Int} (h : Exact ctx current e a) : Exact ctx current (.negate e) (-a)
  | add {l r : Expr} {a b : Int} (hl : Exact ctx current l a) (hr : Exact ctx current r b) :
      Exact ctx current (.binary .add l r) (a + b)
  | subtract {l r : Expr} {a b : Int} (hl : Exact ctx current l a) (hr : Exact ctx current r b) :
      Exact ctx current (.binary .subtract l r) (a - b)
  | multiply {l r : Expr} {a b : Int} (hl : Exact ctx current l a) (hr : Exact ctx current r b) :
      Exact ctx current (.binary .multiply l r) (a * b)

theorem Number.word?_integer {n : Int} (h : Word.fits n = true) :
    (Number.integer n).word? = some n :=
  if_pos h

theorem negated_integer {n : Int} (h : Word.fits n = true) :
    negated (some (.integer n)) = .ok (.integer (Word.wrap (-n))) := by
  simp only [negated, Json.integer, Number.word?_integer h]

theorem BinaryOp.calculate_integers (op : BinaryOp) {a b : Int} (ha : Word.fits a = true)
    (hb : Word.fits b = true) :
    op.calculate (some (.integer a)) (some (.integer b)) = op.onWords a b := by
  simp only [calculate, Json.integer, onNumbers, Number.word?_integer ha, Number.word?_integer hb]

namespace Expr

variable {ctx : Context} {current : Json}

theorem evaluate_words {op : BinaryOp} (hlogical : op.isLogical = false)
    (hcomparison : op.isComparison = false) {l r : Expr} {a b : Int} (ha : Word.fits a = true)
    (hb : Word.fits b = true) (hl : l.evaluate ctx current .json = .ok (.ofJson (.integer a)))
    (hr : r.evaluate ctx current .json = .ok (.ofJson (.integer b))) :
    (Expr.binary op l r).evaluate ctx current .json =
      Coercion.ofCalculation ctx.mode (op.onWords a b) := by
  rw [evaluate, hlogical, hcomparison, hl, hr, ← op.calculate_integers ha hb]
  rfl

theorem evaluate_negate_word {e : Expr} {a : Int} (ha : Word.fits a = true)
    (he : e.evaluate ctx current .json = .ok (.ofJson (.integer a))) :
    (Expr.negate e).evaluate ctx current .json = .ok (.ofJson (.integer (Word.wrap (-a)))) := by
  rw [evaluate, he]
  change ExprValue.ofJson <$> negated (some (.integer a)) = _
  rw [negated_integer ha]
  rfl

/-- Every operator reduces its result, and the operands that it calculates with are congruent to the
exact ones. -/
theorem Exact.evaluate {e : Expr} {n : Int} (h : Exact ctx current e n) :
    e.evaluate ctx current .json = .ok (.ofJson (.integer (Word.wrap n))) := by
  induction h with
  | literal h => rw [Expr.evaluate, Word.wrap_of_fits h]
  | @query p l n _ hselect h =>
    rw [Expr.evaluate, hselect, Word.wrap_of_fits h]
    exact if_neg (by simp)
  | @negate e a _ ih =>
    rw [evaluate_negate_word (Word.fits_wrap a) ih, Word.wrap_congr (Word.wrap_modEq a).neg]
  | @add l r a b _ _ ihl ihr =>
    rw [evaluate_words rfl rfl (Word.fits_wrap a) (Word.fits_wrap b) ihl ihr,
      ← Word.wrap_congr ((Word.wrap_modEq a).add (Word.wrap_modEq b))]
    rfl
  | @subtract l r a b _ _ ihl ihr =>
    rw [evaluate_words rfl rfl (Word.fits_wrap a) (Word.fits_wrap b) ihl ihr,
      ← Word.wrap_congr ((Word.wrap_modEq a).sub (Word.wrap_modEq b))]
    rfl
  | @multiply l r a b _ _ ihl ihr =>
    rw [evaluate_words rfl rfl (Word.fits_wrap a) (Word.fits_wrap b) ihl ihr,
      ← Word.wrap_congr ((Word.wrap_modEq a).mul (Word.wrap_modEq b))]
    rfl

theorem evaluate_divide {l r : Expr} {a b : Int} (ha : Word.fits a = true)
    (hb : Word.fits b = true) (hl : l.evaluate ctx current .json = .ok (.ofJson (.integer a)))
    (hr : r.evaluate ctx current .json = .ok (.ofJson (.integer b))) :
    (Expr.binary .divide l r).evaluate ctx current .json =
      if b = 0 then .error .divisionByZero
      else .ok (.ofJson (.integer (Word.wrap (a.tdiv b)))) := by
  rw [evaluate_words rfl rfl ha hb hl hr, BinaryOp.onWords]
  split <;> rfl

end Expr

/-- Arithmetic on 64-bit integers is arithmetic modulo 2 to the 64, in either mode: the value of an
expression is the integer of 64 bits that is congruent to its exact value. A quotient is truncated
toward zero and then reduced, and there is none exactly if the divisor is zero. -/
theorem Expr.evaluate_wraps (ctx : Context) (current : Json) :
    (∀ (e : Expr) (n : Int), e.Exact ctx current n →
      ∃ m : Int, e.evaluate ctx current .json = .ok (.ofJson (.integer m)) ∧
        (-2 ^ 63 ≤ m ∧ m < 2 ^ 63) ∧ m ≡ n [ZMOD 2 ^ 64]) ∧
    ∀ (l r : Expr) (a b : Int), -2 ^ 63 ≤ a ∧ a < 2 ^ 63 → -2 ^ 63 ≤ b ∧ b < 2 ^ 63 →
      l.evaluate ctx current .json = .ok (.ofJson (.integer a)) →
      r.evaluate ctx current .json = .ok (.ofJson (.integer b)) →
        ((Expr.binary .divide l r).evaluate ctx current .json = .error .divisionByZero ↔ b = 0) ∧
        (b ≠ 0 → ∃ m : Int,
          (Expr.binary .divide l r).evaluate ctx current .json = .ok (.ofJson (.integer m)) ∧
            (-2 ^ 63 ≤ m ∧ m < 2 ^ 63) ∧ m ≡ a.tdiv b [ZMOD 2 ^ 64]) := by
  constructor
  · intro e n h
    exact ⟨Word.wrap n, h.evaluate, Word.wrap_range n, Word.wrap_modEq n⟩
  · intro l r a b ha hb hl hr
    have ha' := (Word.fits_iff_range a).mpr ha
    have hb' := (Word.fits_iff_range b).mpr hb
    rw [Expr.evaluate_divide ha' hb' hl hr]
    refine ⟨by split <;> simp [*], fun hzero => ?_⟩
    rw [if_neg hzero]
    exact ⟨_, rfl, Word.wrap_range _, Word.wrap_modEq _⟩

theorem Expr.evaluate_wraps_least :
    let ctx : Context := ⟨.null, .standard, .strict⟩
    let current := Json.object [("n", .integer (-9223372036854775808))]
    let n : Expr := .singular ⟨.current, [.children [.member "n"]]⟩
    (Expr.binary .subtract (.negate n) (.integer 5)).evaluate ctx current .json =
        .ok (.ofJson (.integer 9223372036854775803)) ∧
      (Expr.binary .divide n (.integer (-1))).evaluate ctx current .json =
        .ok (.ofJson (.integer (-9223372036854775808))) ∧
      (Expr.binary .divide n (.integer 0)).evaluate ctx current .json =
        .error .divisionByZero := by
  intro ctx current n
  have h := Expr.evaluate_wraps ctx current
  have hn : n.Exact ctx current (-9223372036854775808) := .query rfl rfl rfl
  have hfive : (Expr.integer 5).Exact ctx current 5 := .literal rfl
  obtain ⟨m, hm, hrange, hcongruent⟩ := h.1 _ _ (.subtract (.negate hn) hfive)
  have hdivide := h.2 n (.integer (-1)) (-9223372036854775808) (-1) (by decide) (by decide) rfl rfl
  obtain ⟨q, hq, hqrange, hqcongruent⟩ := hdivide.2 (by decide)
  have hzero := h.2 n (.integer 0) (-9223372036854775808) 0 (by decide) (by decide) rfl rfl
  have htruncated : Int.tdiv (-9223372036854775808) (-1) = 9223372036854775808 := by decide
  rw [htruncated, Int.ModEq] at hqcongruent
  rw [Int.ModEq] at hcongruent
  have hvalue : m = 9223372036854775803 := by omega
  have hquotient : q = -9223372036854775808 := by omega
  exact ⟨hvalue ▸ hm, hquotient ▸ hq, hzero.1.mpr rfl⟩

end JsonPath
