import Mathlib
import JsonPath.Comparison

set_option autoImplicit false

/-!
# The numbers that floats stand for

A finite float is a sign, a mantissa and an exponent, and the packed bits keep each of them.
Among finite floats, comparison is that of the numbers they stand for.
-/
namespace JsonPath

namespace Binary64

open Float.Model (Format UnpackedFloat)
open Float.Model.UnpackedFloat

def value : UnpackedFloat → ℚ
  | .finite sign m e _ => sign.apply m * 2 ^ e
  | _ => 0

/-- The mantissa fills its 53 bits unless the exponent is the least one. -/
structure Canonical (m : Nat) (e : Int) : Prop where
  mantissa_lt : m < 2 ^ 53
  least_le : -1074 ≤ e
  le_greatest : e ≤ 971
  full_or_least : 2 ^ 52 ≤ m ∨ e = -1074

variable {m n : Nat} {e f : Int}

theorem Canonical.scaled_lt (hm : Canonical m e) (hn : Canonical n f) (h : e < f) :
    (m : ℚ) * 2 ^ e < n * 2 ^ f := by
  have hfull : 2 ^ 52 ≤ n := hn.full_or_least.resolve_right (by have := hm.least_le; omega)
  have hupper : (m : ℚ) < 2 * 2 ^ 52 := by
    have := hm.mantissa_lt
    exact_mod_cast (by omega : m < 2 * 2 ^ 52)
  have hlower : (2 ^ 52 : ℚ) ≤ n := by exact_mod_cast hfull
  calc (m : ℚ) * 2 ^ e < 2 * 2 ^ 52 * 2 ^ e := by gcongr
    _ = 2 ^ 52 * 2 ^ (e + 1) := by rw [zpow_add_one₀ two_ne_zero]; ring
    _ ≤ n * 2 ^ (e + 1) := by gcongr
    _ ≤ n * 2 ^ f := by gcongr; exacts [one_le_two, h]

/-- Exponents decide first, then mantissas. -/
theorem Canonical.compare_eq (hm : Canonical m e) (hn : Canonical n f) :
    (compare e f).then (compare m n) = cmp ((m : ℚ) * 2 ^ e) (n * 2 ^ f) := by
  rcases lt_trichotomy e f with h | rfl | h
  · rw [compare_lt_iff_lt.mpr h, (cmp_eq_lt_iff _ _).mpr (hm.scaled_lt hn h)]
    rfl
  · rw [compare_eq_iff_eq.mpr rfl, cmp_mul_pos_right (by positivity),
      Nat.strictMono_cast.cmp_map_eq, cmp_eq_compare]
    rfl
  · rw [compare_gt_iff_gt.mpr h, (cmp_eq_gt_iff _ _).mpr (hn.scaled_lt hm h)]
    rfl

theorem value_positive (hm : 0 < m) : 0 < value (.finite .positive m e hm) := by
  have hcast : (0 : ℚ) < m := Nat.cast_pos.mpr hm
  simp only [value, Sign.apply, Int.cast_natCast]
  positivity

theorem value_negative (hm : 0 < m) :
    value (.finite .negative m e hm) = -value (.finite .positive m e hm) := by
  simp only [value, Sign.apply, Int.cast_neg, neg_mul]

theorem value_negative_neg (hm : 0 < m) : value (.finite .negative m e hm) < 0 := by
  rw [value_negative]
  exact neg_neg_of_pos (value_positive hm)

inductive Finite : UnpackedFloat → Prop
  | zero (sign : Sign) : Finite (.zero sign)
  | finite {m : Nat} {e : Int} (sign : Sign) (hm : 0 < m) (h : Canonical m e) :
      Finite (.finite sign m e hm)

theorem Finite.isFinite {u : UnpackedFloat} (h : Finite u) : u.isFinite = true := by
  cases h <;> rfl

theorem compare_positive {hm : 0 < m} {hn : 0 < n} (h : Canonical m e) (h' : Canonical n f) :
    UnpackedFloat.compare (.finite .positive m e hm) (.finite .positive n f hn) =
      some (cmp (value (.finite .positive m e hm)) (value (.finite .positive n f hn))) :=
  congrArg some (h.compare_eq h')

theorem compare_negative {hm : 0 < m} {hn : 0 < n} (h : Canonical m e) (h' : Canonical n f) :
    UnpackedFloat.compare (.finite .negative m e hm) (.finite .negative n f hn) =
      some (cmp (value (.finite .negative m e hm)) (value (.finite .negative n f hn))) := by
  have hneg (a b : ℚ) : cmp (-a) (-b) = (cmp a b).swap := by
    rw [cmp_swap]
    simp only [cmp, cmpUsing, neg_lt_neg_iff]
  rw [value_negative, value_negative, hneg]
  exact congrArg (fun o => some o.swap) (h.compare_eq h')

theorem Finite.compare_eq {u v : UnpackedFloat} (hu : Finite u) (hv : Finite v) :
    u.compare v = some (cmp (value u) (value v)) := by
  have hlt {a b : ℚ} (h : a < b) : some .lt = some (cmp a b) :=
    congrArg some ((cmp_eq_lt_iff a b).mpr h).symm
  have hgt {a b : ℚ} (h : b < a) : some .gt = some (cmp a b) :=
    congrArg some ((cmp_eq_gt_iff a b).mpr h).symm
  cases hu with
  | zero sign =>
    cases hv with
    | zero sign' => exact congrArg some (cmp_self_eq_eq (0 : ℚ)).symm
    | finite sign' hn h' =>
      cases sign' with
      | negative => exact hgt (value_negative_neg hn)
      | positive => exact hlt (value_positive hn)
  | finite sign hm h =>
    cases hv with
    | zero sign' =>
      cases sign with
      | negative => exact hlt (value_negative_neg hm)
      | positive => exact hgt (value_positive hm)
    | finite sign' hn h' =>
      cases sign with
      | negative =>
        cases sign' with
        | negative => exact compare_negative h h'
        | positive => exact hlt ((value_negative_neg hm).trans (value_positive hn))
      | positive =>
        cases sign' with
        | negative => exact hgt ((value_negative_neg hn).trans (value_positive hm))
        | positive => exact compare_positive h h'

theorem toNat_implicit (x : BitVec 52) : (1#1 ++ x).toNat = 2 ^ 52 + x.toNat := by
  rw [BitVec.toNat_append, ← Nat.shiftLeft_add_eq_or_of_lt x.isLt]
  rfl

theorem Canonical.pack_full (sign : Sign) {hm : 0 < m} (h : Canonical m e) (hfull : 2 ^ 52 ≤ m) :
    pack .binary64 (.finite sign m e hm) =
      packComponents .binary64 sign (BitVec.ofNat 11 (e + 1075).toNat) (BitVec.ofNat 52 m) := by
  have hlog : m.log2 = 52 := (Nat.log2_eq_iff (by omega)).mpr ⟨hfull, h.mantissa_lt⟩
  have hbiased : (e + Format.binary64.exponentBias +
      Format.binary64.mantissaBitsWithoutImplicit).toNat = (e + 1075).toNat := by
    change (e + 1023 + 52).toNat = (e + 1075).toNat
    omega
  have hgreatest := h.le_greatest
  rw [pack]
  simp only [hlog, hbiased]
  rw [if_neg (by omega), if_pos (by decide)]

theorem pack_least (sign : Sign) {hm : 0 < m} (h : m < 2 ^ 52) :
    pack .binary64 (.finite sign m (-1074) hm) =
      packComponents .binary64 sign 0#11 (BitVec.ofNat 52 m) := by
  have hlog : m.log2 < 52 := (Nat.log2_lt (by omega)).mpr h
  rw [pack]
  simp only
  rw [if_neg (by decide), if_neg (by change ¬m.log2 + 1 = 53; omega)]

theorem unpack_full (sign : Sign) {k : Nat} (hpos : 0 < k) (hk : k < 2047) (x : BitVec 52) :
    unpack .binary64 (packComponents .binary64 sign (BitVec.ofNat 11 k) x) =
      .finite sign (1#1 ++ x).toNat (k - 1075) (by rw [toNat_implicit]; omega) := by
  have htoNat : (BitVec.ofNat 11 k).toNat = k := by
    rw [BitVec.toNat_ofNat]
    omega
  have hfinite : BitVec.ofNat 11 k ≠ -1#11 := fun h => by
    have := congrArg BitVec.toNat h
    rw [htoNat] at this
    exact hk.ne this
  have hnonzero : BitVec.ofNat 11 k ≠ 0#11 := fun h => by
    have := congrArg BitVec.toNat h
    rw [htoNat] at this
    exact hpos.ne' this
  rw [unpack]
  simp only [unpackExponent_packComponents, unpackMantissa_packComponents,
    unpackSign_packComponents, Sign.ofBitVec_toBitVec]
  rw [if_neg hfinite, if_neg hnonzero]
  simp only [htoNat]
  rfl

theorem unpack_least (sign : Sign) {x : BitVec 52} (hx : x ≠ 0#52) :
    unpack .binary64 (packComponents .binary64 sign 0#11 x) =
      .finite sign x.toNat (-1074) (by simpa [BitVec.toNat_pos, BitVec.pos_iff_ne_zero]) := by
  rw [unpack]
  simp only [unpackExponent_packComponents, unpackMantissa_packComponents,
    unpackSign_packComponents, Sign.ofBitVec_toBitVec]
  rw [if_neg (by decide), if_pos trivial, dif_neg hx]
  rfl

theorem Finite.unpack_pack {u : UnpackedFloat} (hu : Finite u) :
    unpack .binary64 (pack .binary64 u) = u := by
  cases hu with
  | zero sign => exact unpack_packedZero
  | @finite m e sign hm h =>
    have hlt := h.mantissa_lt
    have hleast := h.least_le
    have hgreatest := h.le_greatest
    have htoNat : (BitVec.ofNat 52 m).toNat = m % 2 ^ 52 := BitVec.toNat_ofNat m 52
    by_cases hm52 : 2 ^ 52 ≤ m
    · have hmantissa : (1#1 ++ BitVec.ofNat 52 m).toNat = m := by
        rw [toNat_implicit, htoNat]
        omega
      rw [h.pack_full sign hm52, unpack_full sign (by omega) (by omega)]
      simp only [hmantissa]
      congr 1
      omega
    · obtain rfl := h.full_or_least.resolve_left hm52
      have hmantissa : (BitVec.ofNat 52 m).toNat = m := by
        rw [htoNat]
        omega
      have hnonzero : BitVec.ofNat 52 m ≠ 0#52 := fun h => by
        have := congrArg BitVec.toNat h
        rw [hmantissa] at this
        exact hm.ne' this
      rw [pack_least sign (by omega), unpack_least sign hnonzero]
      simp only [hmantissa]

theorem not_isFinite_unpack (sign : Sign) (x : BitVec 52) :
    (unpack .binary64 (packComponents .binary64 sign (-1#11) x)).isFinite = false := by
  rw [unpack]
  simp only [unpackExponent_packComponents, unpackMantissa_packComponents, if_true]
  split <;> rfl

theorem finite_unpack {b : BitVec 64} (h : (unpack .binary64 b).isFinite = true) :
    Finite (unpack .binary64 b) := by
  have hcomponents := @packComponents_unpackSign_unpackExponent_unpackMantissa .binary64 b
  rw [← hcomponents] at h ⊢
  generalize Sign.ofBitVec (@unpackSign .binary64 b) = sign at h ⊢
  generalize @unpackExponent .binary64 b = k at h ⊢
  generalize @unpackMantissa .binary64 b = x at h ⊢
  change BitVec 11 at k
  change BitVec 52 at x
  have hx := x.isLt
  rcases eq_or_ne k (-1#11) with rfl | hinfinite
  · rw [not_isFinite_unpack] at h
    cases h
  rcases eq_or_ne k 0#11 with rfl | hk
  · rcases eq_or_ne x 0#52 with rfl | hx0
    · change Finite (unpack .binary64 (packedZero .binary64 sign))
      rw [unpack_packedZero]
      exact .zero sign
    · rw [unpack_least sign hx0]
      exact .finite _ _ ⟨by omega, by omega, by omega, .inr rfl⟩
  · have hpos : 0 < k.toNat := Nat.pos_of_ne_zero fun h => hk (BitVec.eq_of_toNat_eq h)
    have hlt : k.toNat < 2047 := by
      have hne : k.toNat ≠ 2047 := fun h => hinfinite (BitVec.eq_of_toNat_eq h)
      have := k.isLt
      omega
    have hfull := unpack_full sign hpos hlt x
    rw [BitVec.ofNat_toNat, BitVec.setWidth_eq] at hfull
    rw [hfull]
    refine .finite _ _ ⟨?_, by omega, by omega, .inl ?_⟩
    all_goals rw [toNat_implicit]; omega

end Binary64

/-- The number that a finite float stands for. -/
def floatValue (x : Float) : ℚ :=
  Binary64.value x.toModel.unpack

theorem Binary64.compare_unpack {x y : Float} (hx : x.isFinite = true) (hy : y.isFinite = true) :
    x.toModel.unpack.compare y.toModel.unpack = some (cmp (floatValue x) (floatValue y)) :=
  (finite_unpack hx).compare_eq (finite_unpack hy)

theorem floatValue_lt_iff {x y : Float} (hx : x.isFinite = true) (hy : y.isFinite = true) :
    x < y ↔ floatValue x < floatValue y := by
  change decide (x.toModel < y.toModel) = true ↔ _
  rw [decide_eq_true_iff, ← cmp_eq_lt_iff]
  change (x.toModel.unpack.compare y.toModel.unpack == some .lt) = true ↔ _
  rw [Binary64.compare_unpack hx hy, beq_iff_eq, Option.some_inj]

theorem floatValue_eq_iff {x y : Float} (hx : x.isFinite = true) (hy : y.isFinite = true) :
    (x == y) = true ↔ floatValue x = floatValue y := by
  rw [← cmp_eq_eq_iff (floatValue x)]
  change (x.toModel.unpack.compare y.toModel.unpack == some .eq) = true ↔ _
  rw [Binary64.compare_unpack hx hy, beq_iff_eq, Option.some_inj]

/-- Finite floats compare as the numbers that they stand for. -/
theorem compareFloats_eq {x y : Float} (hx : x.isFinite = true) (hy : y.isFinite = true) :
    Number.compareFloats x y = some (cmp (floatValue x) (floatValue y)) := by
  rw [Number.compareFloats]
  simp only [floatValue_lt_iff hx hy, floatValue_lt_iff hy hx, floatValue_eq_iff hx hy]
  rcases lt_trichotomy (floatValue x) (floatValue y) with h | h | h
  · rw [if_pos h, (cmp_eq_lt_iff _ _).mpr h]
  · rw [if_neg h.not_lt, if_pos h, (cmp_eq_eq_iff _ _).mpr h]
  · rw [if_neg h.not_gt, if_neg h.ne', if_pos h, (cmp_eq_gt_iff _ _).mpr h]

end JsonPath
