import JsonPath.Proofs.FloatValue

set_option autoImplicit false

/-!
# Integers as floats

An integer becomes the nearest float, and of two the one with the even mantissa. This keeps the
order of integers, and the integers themselves up to `2 ^ 53`.
-/
namespace JsonPath

/-- A natural number over a power of two, rounded to the nearest one, and of two to the even one. -/
def nearestEven (m k : Nat) : Nat :=
  if 2 * (m % 2 ^ k) < 2 ^ k then m / 2 ^ k
  else if 2 * (m % 2 ^ k) = 2 ^ k then m / 2 ^ k + m / 2 ^ k % 2
  else m / 2 ^ k + 1

theorem nearestEven_zero (m : Nat) : nearestEven m 0 = m := by
  simp [nearestEven, Nat.mod_one]

theorem nearestEven_mul_pow (m k j : Nat) :
    nearestEven (m * 2 ^ j) (k + j) = nearestEven m k := by
  have hpos : 0 < 2 ^ j := Nat.two_pow_pos j
  have hdiv : m * 2 ^ j / 2 ^ (k + j) = m / 2 ^ k := by
    rw [pow_add, Nat.mul_div_mul_right _ _ hpos]
  have hmod : 2 * (m * 2 ^ j % 2 ^ (k + j)) = 2 * (m % 2 ^ k) * 2 ^ j := by
    rw [pow_add, Nat.mul_mod_mul_right, mul_assoc]
  rw [nearestEven, hdiv, hmod, pow_add, nearestEven]
  simp only [Nat.mul_lt_mul_right hpos, Nat.mul_left_inj hpos.ne']

theorem div_le_nearestEven (m k : Nat) : m / 2 ^ k ≤ nearestEven m k := by
  rw [nearestEven]
  split_ifs <;> omega

theorem nearestEven_le (m k : Nat) : nearestEven m k ≤ m / 2 ^ k + 1 := by
  rw [nearestEven]
  split_ifs <;> omega

theorem nearestEven_mono {m n : Nat} (k : Nat) (h : m ≤ n) : nearestEven m k ≤ nearestEven n k := by
  rcases (Nat.div_le_div_right (c := 2 ^ k) h).lt_or_eq with hlt | heq
  · calc nearestEven m k ≤ m / 2 ^ k + 1 := nearestEven_le m k
      _ ≤ n / 2 ^ k := hlt
      _ ≤ nearestEven n k := div_le_nearestEven n k
  · have hm := Nat.div_add_mod m (2 ^ k)
    have hn := Nat.div_add_mod n (2 ^ k)
    rw [heq] at hm
    have hmod : m % 2 ^ k ≤ n % 2 ^ k := by omega
    rw [nearestEven, nearestEven, heq]
    split_ifs <;> omega

def nearest (n : Nat) : Nat :=
  nearestEven n (n.log2 - 52) * 2 ^ (n.log2 - 52)

theorem two_pow_le_nearestEven {n k : Nat} (h : n.log2 = 52 + k) : 2 ^ 52 ≤ nearestEven n k := by
  have hn : n ≠ 0 := by
    rintro rfl
    exact absurd h (by simp; omega)
  have hdiv : 2 ^ 52 ≤ n / 2 ^ k := by
    rw [Nat.le_div_iff_mul_le (Nat.two_pow_pos k), ← pow_add, ← h]
    exact Nat.log2_self_le hn
  exact hdiv.trans (div_le_nearestEven n k)

theorem nearestEven_le_two_pow {n k : Nat} (h : n.log2 ≤ 52 + k) : nearestEven n k ≤ 2 ^ 53 := by
  have hlt : n < 2 ^ 53 * 2 ^ k := by
    rw [← pow_add]
    exact Nat.lt_log2_self.trans_le (Nat.pow_le_pow_right (by decide) (by omega))
  have hdiv : n / 2 ^ k < 2 ^ 53 := (Nat.div_lt_iff_lt_mul (Nat.two_pow_pos k)).mpr hlt
  exact (nearestEven_le n k).trans hdiv

theorem nearest_mono {m n : Nat} (h : m ≤ n) : nearest m ≤ nearest n := by
  have hlog : m.log2 ≤ n.log2 := by
    simpa only [Nat.log2_eq_log_two] using Nat.log_mono_right h
  rw [nearest, nearest]
  generalize hj : m.log2 - 52 = j
  generalize hk : n.log2 - 52 = k
  rcases (show j ≤ k by omega).lt_or_eq with hlt | rfl
  · -- A power of two stands between numbers that lose different numbers of bits.
    calc nearestEven m j * 2 ^ j ≤ 2 ^ 53 * 2 ^ j :=
          Nat.mul_le_mul_right _ (nearestEven_le_two_pow (by omega))
      _ = 2 ^ (53 + j) := (pow_add 2 53 j).symm
      _ ≤ 2 ^ (52 + k) := Nat.pow_le_pow_right (by decide) (by omega)
      _ = 2 ^ 52 * 2 ^ k := pow_add 2 52 k
      _ ≤ nearestEven n k * 2 ^ k :=
          Nat.mul_le_mul_right _ (two_pow_le_nearestEven (by omega))
  · exact Nat.mul_le_mul_right _ (nearestEven_mono j h)

theorem log2_mul_two_pow {n : Nat} (hn : n ≠ 0) (j : Nat) : (n * 2 ^ j).log2 = n.log2 + j := by
  rw [Nat.log2_eq_iff (by positivity), pow_add, add_right_comm, pow_add _ (_ + 1)]
  exact ⟨Nat.mul_le_mul_right _ (Nat.log2_self_le hn),
    Nat.mul_lt_mul_of_pos_right Nat.lt_log2_self (Nat.two_pow_pos j)⟩

theorem nearest_mul_pow {m : Nat} (hm : m < 2 ^ 53) (j : Nat) :
    nearest (m * 2 ^ j) = m * 2 ^ j := by
  rcases Nat.eq_zero_or_pos m with rfl | hpos
  · rw [zero_mul]
    decide
  have hlog : m.log2 < 53 := (Nat.log2_lt hpos.ne').mpr hm
  have hlost : (m * 2 ^ j).log2 - 52 ≤ j := by
    rw [log2_mul_two_pow hpos.ne']
    omega
  rw [nearest]
  generalize (m * 2 ^ j).log2 - 52 = k at hlost ⊢
  obtain ⟨i, rfl⟩ := Nat.exists_eq_add_of_le' hlost
  have hexact := nearestEven_mul_pow (m * 2 ^ i) 0 k
  rw [zero_add, nearestEven_zero, mul_assoc, ← pow_add] at hexact
  rw [hexact, mul_assoc, ← pow_add]

theorem nearest_of_le {n : Nat} (h : n ≤ 2 ^ 53) : nearest n = n := by
  rcases h.lt_or_eq with hlt | rfl
  · simpa using nearest_mul_pow hlt 0
  · decide

namespace Binary64

open Float.Model (Format UnpackedFloat totalExponent)
open Float.Model.UnpackedFloat

/-- What `k` shifts leave of a mantissa: the quotient, whether the rest is half a place or more,
and whether it is neither nothing nor half a place. -/
structure Shifted (m k : Nat) (shifted : ExtendedMantissa) : Prop where
  mantissa_eq : shifted.mantissa = m / 2 ^ k
  roundBit_iff : shifted.roundBit = true ↔ 2 ^ k ≤ 2 * (m % 2 ^ k)
  stickyBit_iff : shifted.stickyBit = true ↔ 2 * (m % 2 ^ k) ≠ 0 ∧ 2 * (m % 2 ^ k) ≠ 2 ^ k

variable {m k : Nat} {e : Int}

theorem Shifted.shiftRightOne {shifted : ExtendedMantissa} (h : Shifted m k shifted) :
    Shifted m (k + 1) shifted.shiftRightOne := by
  obtain ⟨hmantissa, hround, hsticky⟩ := h
  have hpos : 0 < 2 ^ k := Nat.two_pow_pos k
  have hlt : m % 2 ^ k < 2 ^ k := Nat.mod_lt _ hpos
  have hmod : m % 2 ^ (k + 1) = m % 2 ^ k + 2 ^ k * (m / 2 ^ k % 2) := Nat.mod_pow_succ
  have hbit : m / 2 ^ k % 2 = 0 ∨ m / 2 ^ k % 2 = 1 := Nat.mod_two_eq_zero_or_one _
  refine ⟨?_, ?_, ?_⟩
  · simp only [ExtendedMantissa.shiftRightOne, hmantissa, Nat.div_div_eq_div_mul, pow_succ]
  · simp only [ExtendedMantissa.shiftRightOne, hmantissa, bne_iff_ne]
    rw [hmod, pow_succ]
    rcases hbit with h | h <;> rw [h] <;> omega
  · simp only [ExtendedMantissa.shiftRightOne, Bool.or_eq_true, hround, hsticky]
    rw [hmod, pow_succ]
    rcases hbit with h | h <;> rw [h] <;> omega

theorem shifted (m k : Nat) :
    Shifted m k (ExtendedMantissa.ofMantissaAndAccuracy m .exact >>> k) := by
  induction k with
  | zero =>
    have hmod : m % 2 ^ 0 = 0 := Nat.mod_one m
    refine ⟨(Nat.div_one m).symm, ?_, ?_⟩
    all_goals
      change false = true ↔ _
      rw [hmod]
      decide
  | succ k ih => exact ih.shiftRightOne

theorem Shifted.roundedMantissa_eq {shifted : ExtendedMantissa} (h : Shifted m k shifted) :
    shifted.roundedMantissa = nearestEven m k := by
  obtain ⟨mantissa, roundBit, stickyBit⟩ := shifted
  obtain ⟨rfl, hround, hsticky⟩ := h
  rw [nearestEven]
  cases roundBit with
  | false =>
    have hless : 2 * (m % 2 ^ k) < 2 ^ k := not_le.mp fun h => Bool.false_ne_true (hround.mpr h)
    rw [if_pos hless]
    cases stickyBit <;> rfl
  | true =>
    have hmore : 2 ^ k ≤ 2 * (m % 2 ^ k) := hround.mp rfl
    rw [if_neg hmore.not_gt]
    cases stickyBit with
    | false =>
      have hhalf : 2 * (m % 2 ^ k) = 2 ^ k := by
        by_contra hne
        have hpos : 0 < 2 ^ k := Nat.two_pow_pos k
        exact Bool.false_ne_true (hsticky.mpr ⟨by omega, hne⟩)
      rw [if_pos hhalf]
      rfl
    | true =>
      rw [if_neg (hsticky.mp rfl).2]
      rfl

/-- Where the first bit of a mantissa of 53 bits or more stands decides the exponent. -/
theorem targetExponent_eq (h : m.log2 = 52 + k) (hleast : -1074 ≤ e + k) :
    Format.binary64.targetExponent (totalExponent m e) = e + k := by
  change max ((m.log2 : Int) + 1 + e - 53) (-1074) = e + k
  rw [h]
  omega

theorem shiftToTargetExponent_eq (h : m.log2 = 52 + k) (hleast : -1074 ≤ e + k) :
    shiftToTargetExponent .binary64 m e .exact =
      (ExtendedMantissa.ofMantissaAndAccuracy m .exact >>> k, e + k) := by
  rw [shiftToTargetExponent, targetExponent_eq h hleast, shiftToExponent]
  simp only [add_sub_cancel_left, Int.toNat_natCast]

theorem shiftToTargetExponent_full (h : m.log2 = 52) (hleast : -1074 ≤ e) :
    shiftToTargetExponent .binary64 m e .exact =
      (ExtendedMantissa.ofMantissaAndAccuracy m .exact, e) := by
  rw [shiftToTargetExponent_eq (k := 0) h (by omega), Nat.cast_zero, add_zero]
  rfl

theorem roundWithAccuracy_eq (sign : Sign) (h : m.log2 = 52 + k) (hleast : -1074 ≤ e + k)
    {n : Nat} {f : Int} (hn : 0 < n)
    (hshift : shiftToTargetExponent .binary64 (nearestEven m k) (e + k) .exact =
      (ExtendedMantissa.ofMantissaAndAccuracy n .exact, f)) :
    roundWithAccuracy .binary64 sign m e .exact = .finite sign n f hn := by
  rw [roundWithAccuracy, shiftToTargetExponent_eq h hleast]
  simp only [(shifted m k).roundedMantissa_eq, hshift]
  exact dif_neg hn.ne'

theorem roundWithAccuracy_of_lt (sign : Sign) (h : m.log2 = 52 + k) (hleast : -1074 ≤ e + k)
    (hpos : 0 < nearestEven m k) (hlt : nearestEven m k < 2 ^ 53) :
    roundWithAccuracy .binary64 sign m e .exact = .finite sign (nearestEven m k) (e + k) hpos := by
  have hlog : (nearestEven m k).log2 = 52 :=
    (Nat.log2_eq_iff hpos.ne').mpr ⟨two_pow_le_nearestEven h, hlt⟩
  exact roundWithAccuracy_eq sign h hleast hpos (shiftToTargetExponent_full hlog hleast)

/-- Rounding up to a power of two moves the first bit. -/
theorem roundWithAccuracy_of_eq (sign : Sign) (h : m.log2 = 52 + k) (hleast : -1074 ≤ e + k)
    (heq : nearestEven m k = 2 ^ 53) :
    roundWithAccuracy .binary64 sign m e .exact =
      .finite sign (2 ^ 52) (e + k + 1) (by decide) := by
  refine roundWithAccuracy_eq sign h hleast (by decide) ?_
  rw [heq, shiftToTargetExponent_eq (k := 1) (Nat.log2_two_pow) (by omega)]
  rfl

/-- `u` is a finite float and stands for the number `q`. -/
structure Represents (u : UnpackedFloat) (q : ℚ) : Prop where
  finite : Finite u
  value_eq : value u = q

theorem roundWithAccuracy_represents (h : m.log2 = 52 + k) (hleast : -1074 ≤ e + k)
    (hgreatest : e + k ≤ 970) :
    Represents (roundWithAccuracy .binary64 .positive m e .exact)
      (nearestEven m k * 2 ^ (e + k)) := by
  have hfull : 2 ^ 52 ≤ nearestEven m k := two_pow_le_nearestEven h
  rcases (nearestEven_le_two_pow h.le).lt_or_eq with hlt | heq
  · rw [roundWithAccuracy_of_lt .positive h hleast (by omega) hlt]
    exact ⟨.finite _ _ ⟨hlt, hleast, by omega, .inl hfull⟩, rfl⟩
  · rw [roundWithAccuracy_of_eq .positive h hleast heq, heq]
    refine ⟨.finite _ _ ⟨by decide, by omega, by omega, .inl le_rfl⟩, ?_⟩
    simp only [value, Sign.apply, zpow_add_one₀ (two_ne_zero (α := ℚ))]
    push_cast
    ring

theorem Represents.unpack_pack {u : UnpackedFloat} {q : ℚ} (h : Represents u q) :
    Represents (Float.Model.pack u).unpack q := by
  have heq : (Float.Model.pack u).unpack = u := h.finite.unpack_pack
  rwa [heq]

theorem Represents.neg {u : UnpackedFloat} {q : ℚ} (h : Represents u q) :
    Represents u.neg (-q) := by
  obtain ⟨hfinite, rfl⟩ := h
  cases hfinite with
  | zero sign => exact ⟨.zero _, neg_zero.symm⟩
  | finite sign hm h =>
    refine ⟨.finite _ hm h, ?_⟩
    cases sign with
    | negative => rw [value_negative, neg_neg]; rfl
    | positive => exact value_negative hm

theorem roundWithAccuracy_full (sign : Sign) (h : m.log2 = 52) (hleast : -1074 ≤ e)
    (hpos : 0 < m) : roundWithAccuracy .binary64 sign m e .exact = .finite sign m e hpos := by
  refine roundWithAccuracy_eq sign (k := 0) h (by omega) hpos ?_
  rw [nearestEven_zero, Nat.cast_zero, add_zero, shiftToTargetExponent_full h hleast]

def filled (n : Nat) : Nat :=
  n * 2 ^ (52 - n.log2)

theorem log2_filled {n : Nat} (hn : n ≠ 0) (h : n < 2 ^ 53) : (filled n).log2 = 52 := by
  have hlog : n.log2 < 53 := (Nat.log2_lt hn).mpr h
  rw [filled, log2_mul_two_pow hn]
  omega

theorem filled_pos {n : Nat} (hn : n ≠ 0) : 0 < filled n :=
  Nat.mul_pos (Nat.pos_of_ne_zero hn) (Nat.two_pow_pos _)

theorem round_eq {n : Nat} (hn : n ≠ 0) (h : n < 2 ^ 53) :
    UnpackedFloat.round .binary64 .positive n 0 =
      .finite .positive (filled n) (-(52 - n.log2 : Nat)) (filled_pos hn) := by
  have hlog : n.log2 < 53 := (Nat.log2_lt hn).mpr h
  have htarget : Format.binary64.targetExponent (totalExponent n 0) = -(52 - n.log2 : Nat) := by
    change max ((n.log2 : Int) + 1 + 0 - 53) (-1074) = _
    omega
  rw [UnpackedFloat.round, htarget]
  simp only [decreaseExponent, zero_sub, neg_neg, Int.toNat_natCast, Nat.shiftLeft_eq]
  exact roundWithAccuracy_full .positive (log2_filled hn h) (by omega) (filled_pos hn)

theorem unpack_ofUInt64 {n : Nat} (hn : n ≠ 0) (h : n < 2 ^ 53) :
    (Float.Model.ofUInt64 n.toUInt64).unpack =
      .finite .positive (filled n) (-(52 - n.log2 : Nat)) (filled_pos hn) := by
  have hword : n.toUInt64.toNat = n := by
    change n % 2 ^ 64 = n
    omega
  have hcompare : compare (n : Int) 0 = .gt := Int.compare_eq_gt.mpr (by omega)
  have hconvert : UnpackedFloat.ofUInt64 .binary64 n.toUInt64 =
      .finite .positive (filled n) (-(52 - n.log2 : Nat)) (filled_pos hn) := by
    rw [UnpackedFloat.ofUInt64, UnpackedFloat.ofNat, UnpackedFloat.ofInt,
      UnpackedFloat.normalize, hword, hcompare]
    exact round_eq hn h
  obtain ⟨hfull, hlt⟩ := (Nat.log2_eq_iff (filled_pos hn).ne').mp (log2_filled hn h)
  have hfinite := Finite.finite .positive (filled_pos hn)
    ⟨hlt, (by omega : -1074 ≤ -((52 - n.log2 : Nat) : Int)), by omega, .inl hfull⟩
  rw [Float.Model.ofUInt64, hconvert]
  exact hfinite.unpack_pack

theorem mul_one_represents (h : m.log2 = 52) (hleast : -1074 ≤ e) (hgreatest : e ≤ 970)
    (hpos : 0 < m) :
    Represents
      (UnpackedFloat.mul .binary64 (.finite .positive m e hpos)
        (.finite .positive (2 ^ 52) (-52) (by decide)))
      (m * 2 ^ e) := by
  have hlog : (m * 2 ^ 52).log2 = 52 + 52 := by rw [log2_mul_two_pow hpos.ne', h]
  have hround := roundWithAccuracy_represents hlog (e := e + -52)
    (by push_cast; omega) (by push_cast; omega)
  have hexponent : e + -52 + ((52 : Nat) : Int) = e := by push_cast; omega
  have hmantissa := nearestEven_mul_pow m 0 52
  rw [zero_add, nearestEven_zero] at hmantissa
  rwa [hmantissa, hexponent] at hround

theorem ofNat_represents_of_lt {n : Nat} (hn : n ≠ 0) (h : n < 2 ^ 53) :
    Represents (Float.ofNat n).toModel.unpack n := by
  have hvalue : (n : ℚ) = filled n * 2 ^ (-(52 - n.log2 : Nat) : Int) := by
    rw [filled, zpow_neg, zpow_natCast, Nat.cast_mul, Nat.cast_pow, Nat.cast_ofNat,
      mul_inv_cancel_right₀ (by positivity)]
  have hmodel : (Float.ofNat n).toModel = Float.Model.pack (UnpackedFloat.mul .binary64
      (Float.Model.ofUInt64 n.toUInt64).unpack
      (Float.exactlyRepresentablePowersOfTen[0]).toModel.unpack) := by
    change (Float.ofScientific n false 0).toModel = _
    rw [Float.ofScientific, dif_pos ⟨h, by decide⟩]
    rfl
  have hmul := mul_one_represents (e := -(52 - n.log2 : Nat)) (log2_filled hn h) (by omega)
    (by omega) (filled_pos hn)
  rw [hmodel, unpack_ofUInt64 hn h, hvalue]
  exact hmul.unpack_pack

theorem ofScientific_zero {n : Nat} (hn : n ≠ 0) :
    UnpackedFloat.ofScientific .binary64 n 0 =
      roundWithAccuracy .binary64 .positive (n * 2 ^ 53) (-53) .exact := by
  have hleast : ¬(0 : Int) < -((2 ^ Format.binary64.exponentBits : Int) + n.log2) := by
    change ¬(0 : Int) < -(2 ^ 11 + n.log2)
    omega
  rw [UnpackedFloat.ofScientific, dif_neg hn, if_neg (by decide), if_neg hleast, if_pos le_rfl]
  change roundWithAccuracy .binary64 .positive (n <<< 53 * 1) (-53 + 0) .exact = _
  rw [Nat.shiftLeft_eq, mul_one, add_zero]

theorem ofNat_represents_of_le {n : Nat} (hn : 2 ^ 53 ≤ n) (h : n < 2 ^ 64) :
    Represents (Float.ofNat n).toModel.unpack (nearest n) := by
  have hmodel : (Float.ofNat n).toModel =
      Float.Model.pack (UnpackedFloat.ofScientific .binary64 n 0) := by
    change (Float.ofScientific n false 0).toModel = _
    rw [Float.ofScientific, dif_neg (by omega)]
    rfl
  have hlower : 53 ≤ n.log2 := (Nat.le_log2 (by omega)).mpr hn
  have hupper : n.log2 < 64 := (Nat.log2_lt (by omega)).mpr h
  have hlog : (n * 2 ^ 53).log2 = 52 + (n.log2 - 52 + 53) := by
    rw [log2_mul_two_pow (by omega)]
    omega
  have hround := (roundWithAccuracy_represents hlog (e := -53) (by omega) (by omega)).unpack_pack
  have hexponent : -53 + ((n.log2 - 52 + 53 : Nat) : Int) = (n.log2 - 52 : Nat) := by omega
  rw [nearestEven_mul_pow, hexponent, zpow_natCast] at hround
  rw [hmodel, ofScientific_zero (by omega), nearest]
  push_cast
  exact hround

theorem ofNat_represents {n : Nat} (hn : n < 2 ^ 64) :
    Represents (Float.ofNat n).toModel.unpack (nearest n) := by
  rcases Nat.eq_zero_or_pos n with rfl | hpos
  · have hzero : (Float.ofNat 0).toModel.unpack = .zero .positive := rfl
    rw [hzero]
    exact ⟨.zero _, by simp [value, nearest, nearestEven]⟩
  rcases lt_or_ge n (2 ^ 53) with hlt | hge
  · rw [nearest_of_le hlt.le]
    exact ofNat_represents_of_lt hpos.ne' hlt
  · exact ofNat_represents_of_le hge hn

end Binary64

/-- The integer that an integer becomes as a float. -/
def rounded : Int → Int
  | .ofNat n => nearest n
  | .negSucc n => -nearest (n + 1)

theorem rounded_mono {m n : Int} (h : m ≤ n) : rounded m ≤ rounded n := by
  cases m with
  | ofNat m =>
    cases n with
    | ofNat n => exact Int.ofNat_le.mpr (nearest_mono (Int.ofNat_le.mp h))
    | negSucc n => exact absurd h (by rw [Int.ofNat_eq_natCast]; omega)
  | negSucc m =>
    cases n with
    | ofNat n => exact (Int.neg_nonpos_of_nonneg (Int.natCast_nonneg _)).trans (Int.natCast_nonneg _)
    | negSucc n => exact Int.neg_le_neg (Int.ofNat_le.mpr (nearest_mono (by omega)))

theorem rounded_of_natAbs_le {n : Int} (h : n.natAbs ≤ 2 ^ 53) : rounded n = n := by
  cases n with
  | ofNat n => exact congrArg Int.ofNat (nearest_of_le h)
  | negSucc n => exact congrArg (fun k : Nat => -(k : Int)) (nearest_of_le h)

theorem rounded_neg (n : Int) : rounded (-n) = -rounded n := by
  cases n with
  | ofNat n =>
    cases n with
    | zero => decide
    | succ n => rfl
  | negSucc n => exact (Int.neg_neg _).symm

theorem ofInt_represents {n : Int} (h : n.natAbs < 2 ^ 64) :
    Binary64.Represents (Float.ofInt n).toModel.unpack (rounded n) := by
  cases n with
  | ofNat n => exact Binary64.ofNat_represents h
  | negSucc n =>
    have hneg := (Binary64.ofNat_represents (n := n + 1) h).neg.unpack_pack
    rw [rounded]
    push_cast
    exact hneg

theorem isFinite_ofInt {n : Int} (h : n.natAbs < 2 ^ 64) : (Float.ofInt n).isFinite = true :=
  (ofInt_represents h).finite.isFinite

theorem floatValue_ofInt {n : Int} (h : n.natAbs < 2 ^ 64) :
    floatValue (Float.ofInt n) = rounded n :=
  (ofInt_represents h).value_eq

/-- Small, or an integer that rounding keeps. -/
def Kept (q : ℚ) : Prop :=
  |q| ≤ 2 ^ 53 ∨ ∃ n : Int, q = n ∧ rounded n = n

theorem Kept.neg {q : ℚ} (h : Kept q) : Kept (-q) := by
  rcases h with hsmall | ⟨n, rfl, hn⟩
  · left
    rwa [abs_neg]
  · exact .inr ⟨-n, (Int.cast_neg n).symm, by rw [rounded_neg, hn]⟩

theorem Kept.rounded_le {q : ℚ} (hq : Kept q) {n : Int} (h : n ≤ q) : rounded n ≤ q := by
  rcases hq with hsmall | ⟨k, rfl, hk⟩
  · obtain ⟨hlower, hupper⟩ := abs_le.mp hsmall
    have hn : n ≤ 2 ^ 53 := by exact_mod_cast h.trans hupper
    rcases le_or_gt (-2 ^ 53) n with hle | hgt
    · rwa [rounded_of_natAbs_le (by omega)]
    · calc (rounded n : ℚ) ≤ rounded (-2 ^ 53) := Int.cast_le.mpr (rounded_mono hgt.le)
        _ = -2 ^ 53 := by rw [rounded_of_natAbs_le (by decide)]; norm_num
        _ ≤ q := hlower
  · rw [← hk]
    exact Int.cast_le.mpr (rounded_mono (Int.cast_le.mp h))

theorem Kept.le_rounded {q : ℚ} (hq : Kept q) {n : Int} (h : q ≤ n) : q ≤ rounded n := by
  have hneg := hq.neg.rounded_le (n := -n) (by rw [Int.cast_neg]; exact neg_le_neg h)
  rw [rounded_neg, Int.cast_neg] at hneg
  exact neg_le_neg_iff.mp hneg

theorem Binary64.Canonical.kept {m : Nat} {e : Int} (h : Canonical m e) :
    Kept ((m : ℚ) * 2 ^ e) := by
  rcases le_or_gt e 0 with he | he
  · left
    have hpow : (2 : ℚ) ^ e ≤ 1 := zpow_le_one_of_nonpos₀ one_le_two he
    have hm : (m : ℚ) ≤ 2 ^ 53 := by exact_mod_cast h.mantissa_lt.le
    calc |(m : ℚ) * 2 ^ e| = m * 2 ^ e := abs_of_nonneg (by positivity)
      _ ≤ m * 1 := by gcongr
      _ ≤ 2 ^ 53 := by rwa [mul_one]
  · right
    obtain ⟨j, rfl⟩ := Int.eq_ofNat_of_zero_le he.le
    refine ⟨(m * 2 ^ j : Nat), ?_, congrArg Int.ofNat (nearest_mul_pow h.mantissa_lt j)⟩
    push_cast
    rfl

theorem Binary64.Finite.kept {u : Float.Model.UnpackedFloat} (hu : Finite u) :
    Kept (value u) := by
  cases hu with
  | zero sign => exact .inl (by simp [value])
  | finite sign hm h =>
    cases sign with
    | positive => exact h.kept
    | negative =>
      rw [value_negative]
      exact h.kept.neg

/-- Beyond `2 ^ 53` every float is an integer that rounding keeps. -/
theorem floatValue_kept {x : Float} (hx : x.isFinite = true) : Kept (floatValue x) :=
  (Binary64.finite_unpack hx).kept

end JsonPath
