import JsonPath.Word
import JsonPath.Proofs.FloatRounding

set_option autoImplicit false

/-!
# The order of JSON numbers

Two integers compare exactly. An integer that meets a float becomes a float first, so that numbers
compare by value up to `2 ^ 53`. Beyond that a float can equal several integers; still, what holds
of the values is never denied.
-/
namespace JsonPath

namespace Number

/-- The numbers of JSON documents: integers of 64 bits, signed or not, and finite floats. -/
def InJson : Number → Prop
  | .integer n => Word.least ≤ n ∧ n < 2 ^ 64
  | .float x => x.isFinite = true

def value : Number → ℚ
  | .integer n => n
  | .float x => floatValue x

/-- A number as it is compared with another one. -/
def meeting : Number → Number → Number
  | .integer n, .float _ => .float (integer n).toFloat
  | x, _ => x

/-- Two numbers are equal, as an operator says. -/
def Equals (x y : Number) : Prop :=
  BinaryOp.equal.compare (some (.number x)) (some (.number y)) = true

def AtMost (x y : Number) : Prop :=
  BinaryOp.lessOrEqual.compare (some (.number x)) (some (.number y)) = true

/-- Different integers with a float between them that cannot tell them apart. -/
def Blurred : Number → Number → Number → Prop
  | .integer m, .float _, .integer n => m ≠ n ∧ (Float.ofInt m == Float.ofInt n) = true
  | _, _, _ => False

theorem natAbs_lt {n : Int} (h : (integer n).InJson) : n.natAbs < 2 ^ 64 := by
  obtain ⟨hleast, hlt⟩ := h
  rw [Word.least] at hleast
  omega

variable {x y z : Number}

theorem compare_eq (hx : x.InJson) (hy : y.InJson) :
    x.compare y = some (cmp (x.meeting y).value (y.meeting x).value) := by
  cases x with
  | integer m =>
    cases y with
    | integer n =>
      change some (Ord.compare m n) = some (cmp (m : ℚ) (n : ℚ))
      rw [Int.cast_strictMono.cmp_map_eq, cmp_eq_compare]
    | float y => exact compareFloats_eq (isFinite_ofInt (natAbs_lt hx)) hy
  | float x =>
    cases y with
    | integer n => exact compareFloats_eq hx (isFinite_ofInt (natAbs_lt hy))
    | float y => exact compareFloats_eq hx hy

theorem equals_iff (hx : x.InJson) (hy : y.InJson) :
    x.Equals y ↔ (x.meeting y).value = (y.meeting x).value := by
  change (x.compare y == some .eq) = true ↔ _
  rw [compare_eq hx hy, beq_iff_eq, Option.some_inj, cmp_eq_eq_iff]

theorem atMost_iff (hx : x.InJson) (hy : y.InJson) :
    x.AtMost y ↔ (x.meeting y).value ≤ (y.meeting x).value := by
  change (false || x.compare y == some .lt || x.compare y == some .eq) = true ↔ _
  rw [compare_eq hx hy, Bool.false_or, Bool.or_eq_true, beq_iff_eq, beq_iff_eq, Option.some_inj,
    Option.some_inj, cmp_eq_lt_iff, cmp_eq_eq_iff, le_iff_lt_or_eq]

/-- The value of a number beside a float. -/
def rank : Number → ℚ
  | .integer n => rounded n
  | .float x => floatValue x

theorem value_meeting_float (hx : x.InJson) (y : Float) :
    (x.meeting (.float y)).value = x.rank := by
  cases x with
  | integer n => exact floatValue_ofInt (natAbs_lt hx)
  | float x => rfl

theorem value_float_meeting (x : Float) (y : Number) :
    ((float x).meeting y).value = (float x).rank := by
  cases y <;> rfl

theorem Equals.rank_eq (h : x.Equals y) (hx : x.InJson) (hy : y.InJson) : x.rank = y.rank := by
  rw [equals_iff hx hy] at h
  cases y with
  | float y => rwa [value_meeting_float hx, value_float_meeting] at h
  | integer n =>
    cases x with
    | float x => rwa [value_float_meeting, value_meeting_float hy] at h
    | integer m => exact congrArg (fun k : Int => (rounded k : ℚ)) (Int.cast_injective h)

theorem AtMost.rank_le (h : x.AtMost y) (hx : x.InJson) (hy : y.InJson) : x.rank ≤ y.rank := by
  rw [atMost_iff hx hy] at h
  cases y with
  | float y => rwa [value_meeting_float hx, value_float_meeting] at h
  | integer n =>
    cases x with
    | float x => rwa [value_float_meeting, value_meeting_float hy] at h
    | integer m => exact Int.cast_le.mpr (rounded_mono (Int.cast_le.mp h))

/-- One of two numbers is a float. -/
def Mixed (x y : Number) : Prop :=
  (∃ a, x = float a) ∨ ∃ b, y = float b

theorem mixed_or_integers (x y : Number) : Mixed x y ∨ ∃ m n, x = integer m ∧ y = integer n := by
  cases x with
  | float a => exact .inl (.inl ⟨a, rfl⟩)
  | integer m =>
    cases y with
    | float b => exact .inl (.inr ⟨b, rfl⟩)
    | integer n => exact .inr ⟨m, n, rfl, rfl⟩

theorem rank_le_of_value_le (hx : x.InJson) (hy : y.InJson) (h : x.value ≤ y.value) :
    x.rank ≤ y.rank := by
  cases x with
  | integer m =>
    cases y with
    | integer n => exact Int.cast_le.mpr (rounded_mono (Int.cast_le.mp h))
    | float b => exact (floatValue_kept hy).rounded_le h
  | float a =>
    cases y with
    | integer n => exact (floatValue_kept hx).le_rounded h
    | float b => exact h

theorem equals_of_rank_eq (h : x.rank = y.rank) (hmixed : Mixed x y) (hx : x.InJson)
    (hy : y.InJson) : x.Equals y := by
  rw [equals_iff hx hy]
  rcases hmixed with ⟨a, rfl⟩ | ⟨b, rfl⟩
  · rwa [value_float_meeting, value_meeting_float hy]
  · rwa [value_float_meeting, value_meeting_float hx]

theorem atMost_of_rank_le (h : x.rank ≤ y.rank) (hmixed : Mixed x y) (hx : x.InJson)
    (hy : y.InJson) : x.AtMost y := by
  rw [atMost_iff hx hy]
  rcases hmixed with ⟨a, rfl⟩ | ⟨b, rfl⟩
  · rwa [value_float_meeting, value_meeting_float hy]
  · rwa [value_float_meeting, value_meeting_float hx]

theorem equals_of_value_eq (hx : x.InJson) (hy : y.InJson) (h : x.value = y.value) :
    x.Equals y := by
  rcases mixed_or_integers x y with hmixed | ⟨m, n, rfl, rfl⟩
  · have hle := rank_le_of_value_le hx hy h.le
    have hge := rank_le_of_value_le hy hx h.ge
    exact equals_of_rank_eq (hle.antisymm hge) hmixed hx hy
  · exact (equals_iff hx hy).mpr h

theorem atMost_of_value_le (hx : x.InJson) (hy : y.InJson) (h : x.value ≤ y.value) :
    x.AtMost y := by
  rcases mixed_or_integers x y with hmixed | ⟨m, n, rfl, rfl⟩
  · exact atMost_of_rank_le (rank_le_of_value_le hx hy h) hmixed hx hy
  · exact (atMost_iff hx hy).mpr h

theorem Mixed.not_blurred (h : Mixed x z) : ¬Blurred x y z := by
  intro hblurred
  rcases h with ⟨a, rfl⟩ | ⟨b, rfl⟩
  · exact hblurred
  · cases x <;> cases y <;> exact hblurred

theorem blurred_iff {m n : Int} {y : Float} (hm : (integer m).InJson) (hn : (integer n).InJson) :
    Blurred (.integer m) (.float y) (.integer n) ↔ m ≠ n ∧ rounded m = rounded n := by
  rw [Blurred, floatValue_eq_iff (isFinite_ofInt (natAbs_lt hm)) (isFinite_ofInt (natAbs_lt hn)),
    floatValue_ofInt (natAbs_lt hm), floatValue_ofInt (natAbs_lt hn), Int.cast_inj]

theorem Equals.trans_iff (hxy : x.Equals y) (hyz : y.Equals z) (hx : x.InJson) (hy : y.InJson)
    (hz : z.InJson) : x.Equals z ↔ ¬Blurred x y z := by
  have hrank : x.rank = z.rank := (hxy.rank_eq hx hy).trans (hyz.rank_eq hy hz)
  rcases mixed_or_integers x z with hmixed | ⟨m, n, rfl, rfl⟩
  · exact iff_of_true (equals_of_rank_eq hrank hmixed hx hz) hmixed.not_blurred
  rw [equals_iff hx hz]
  cases y with
  | integer k =>
    have hmk := (equals_iff hx hy).mp hxy
    exact iff_of_true (hmk.trans ((equals_iff hy hz).mp hyz)) id
  | float b =>
    have hrounded : rounded m = rounded n := Int.cast_injective hrank
    simp only [blurred_iff hx hz, hrounded, and_true, not_not]
    exact Int.cast_inj

theorem AtMost.trans_iff (hxy : x.AtMost y) (hyz : y.AtMost z) (hx : x.InJson) (hy : y.InJson)
    (hz : z.InJson) : x.AtMost z ↔ ¬(Blurred x y z ∧ z.value < x.value) := by
  have hrank : x.rank ≤ z.rank := (hxy.rank_le hx hy).trans (hyz.rank_le hy hz)
  rcases mixed_or_integers x z with hmixed | ⟨m, n, rfl, rfl⟩
  · exact iff_of_true (atMost_of_rank_le hrank hmixed hx hz) fun h => hmixed.not_blurred h.1
  rw [atMost_iff hx hz, ← not_lt, not_iff_not]
  cases y with
  | integer k =>
    have hmk := (atMost_iff hx hy).mp hxy
    exact iff_of_false (hmk.trans ((atMost_iff hy hz).mp hyz)).not_gt And.left
  | float b =>
    rw [blurred_iff hx hz]
    refine ⟨fun h => ⟨⟨?_, ?_⟩, h⟩, And.right⟩
    all_goals have hlt : n < m := Int.cast_lt.mp h
    · exact hlt.ne'
    · -- The integers and their floats are ordered the opposite way, so the floats are equal.
      exact le_antisymm (Int.cast_le.mp hrank) (rounded_mono hlt.le)

/-- Numbers compare by value, once an integer that meets a float has become one; this changes no
integer up to `2 ^ 53`. Numbers of equal values are equal and ordered values are ordered in any
case. Comparison is transitive but for integers that a float between them cannot tell apart. -/
theorem compare_consistent :
    (∀ x y : Number, x.InJson → y.InJson →
      (x.Equals y ↔ (x.meeting y).value = (y.meeting x).value) ∧
      (x.AtMost y ↔ (x.meeting y).value ≤ (y.meeting x).value)) ∧
    (∀ (n : Int) (y : Number), n.natAbs ≤ 2 ^ 53 → ((integer n).meeting y).value = n) ∧
    (∀ x y : Number, x.InJson → y.InJson →
      (x.value = y.value → x.Equals y) ∧ (x.value ≤ y.value → x.AtMost y)) ∧
    ∀ x y z : Number, x.InJson → y.InJson → z.InJson →
      (x.Equals y → y.Equals z → (x.Equals z ↔ ¬Blurred x y z)) ∧
      (x.AtMost y → y.AtMost z → (x.AtMost z ↔ ¬(Blurred x y z ∧ z.value < x.value))) := by
  refine ⟨fun x y hx hy => ⟨equals_iff hx hy, atMost_iff hx hy⟩, fun n y h => ?_,
    fun x y hx hy => ⟨equals_of_value_eq hx hy, atMost_of_value_le hx hy⟩,
    fun x y z hx hy hz => ⟨fun hxy hyz => hxy.trans_iff hyz hx hy hz,
      fun hxy hyz => hxy.trans_iff hyz hx hy hz⟩⟩
  cases y with
  | integer k => rfl
  | float y =>
    change floatValue (Float.ofInt n) = n
    rw [floatValue_ofInt (by omega), rounded_of_natAbs_le h]

theorem compare_consistent_mixed :
    ((integer 9007199254740993).InJson ∧ (float 9007199254740994.0).InJson ∧
      (integer 9007199254740995).InJson) ∧
    ((integer 9007199254740992).meeting (float 9007199254740994.0)).value = 9007199254740992 ∧
    (integer 9007199254740993).value ≤ (float 9007199254740994.0).value ∧
    ((integer 9007199254740993).AtMost (float 9007199254740994.0) ∧
      (float 9007199254740994.0).AtMost (integer 9007199254740995)) ∧
    (integer 9007199254740993).AtMost (integer 9007199254740995) := by
  have hx : (integer 9007199254740993).InJson := ⟨by decide, by decide⟩
  have hy : (float 9007199254740994.0).InJson := rfl
  have hz : (integer 9007199254740995).InJson := ⟨by decide, by decide⟩
  have hvalue : (integer 9007199254740993).value ≤ (float 9007199254740994.0).value := by
    change ((9007199254740993 : Int) : ℚ) ≤ (4503599627370497 : Nat) * 2 ^ (1 : Int)
    norm_num
  obtain ⟨-, hkept, hfaithful, htrans⟩ := compare_consistent
  have hlower := (hfaithful _ _ hx hy).2 hvalue
  have hupper : (float 9007199254740994.0).AtMost (integer 9007199254740995) := rfl
  refine ⟨⟨hx, hy, hz⟩, hkept 9007199254740992 _ (by decide), hvalue, ⟨hlower, hupper⟩, ?_⟩
  refine ((htrans _ _ _ hx hy hz).2 hlower hupper).mpr fun h => ?_
  exact absurd (Int.cast_lt.mp h.2) (by decide)

/-- Beyond `2 ^ 53` a float can equal two integers. -/
theorem compare_blurred :
    ((integer 9007199254740993).InJson ∧ (float 9007199254740992.0).InJson ∧
      (integer 9007199254740992).InJson) ∧
    ((integer 9007199254740993).Equals (float 9007199254740992.0) ∧
      (float 9007199254740992.0).Equals (integer 9007199254740992) ∧
      ¬(integer 9007199254740993).Equals (integer 9007199254740992)) ∧
    (integer 9007199254740993).AtMost (float 9007199254740992.0) ∧
      (float 9007199254740992.0).AtMost (integer 9007199254740992) ∧
      ¬(integer 9007199254740993).AtMost (integer 9007199254740992) :=
  ⟨⟨⟨by decide, by decide⟩, rfl, by decide, by decide⟩, ⟨rfl, rfl, Bool.false_ne_true⟩, rfl, rfl,
    Bool.false_ne_true⟩

end Number

end JsonPath
