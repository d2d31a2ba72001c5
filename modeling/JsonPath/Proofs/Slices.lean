import JsonPath.Slice
import Mathlib.Algebra.Order.Floor.Div
import Mathlib.Tactic.Ring

set_option autoImplicit false

/-!
# What slices select

The positions of a slice form an arithmetic progression between two bounds. Bounds, steps and sums
are unbounded integers here. The 64 bits in which the positions are computed show nowhere: a
saturated bound is clamped to the end of the array all the same, and a sum that does not fit lies
beyond the bound.
-/
namespace JsonPath
namespace Slice

/-- `first`, `first + step`, `first + 2 * step` and so on, as far as they are less than `distance`
away from `first`. -/
def progression (first step distance : Int) : List Int :=
  (List.range (distance.toNat ⌈/⌉ step.natAbs)).map fun k : Nat => first + k * step

theorem lt_ceilDiv_iff {k d s : Nat} (hs : 0 < s) : k < d ⌈/⌉ s ↔ k * s < d := by
  rw [← not_le, ceilDiv_le_iff_le_mul hs, not_le, Nat.mul_comm]

theorem ceilDiv_eq_succ {d s : Nat} (hd : 0 < d) (hs : 0 < s) : d ⌈/⌉ s = (d - s) ⌈/⌉ s + 1 := by
  refine eq_of_forall_lt_iff fun k => ?_
  cases k with
  | zero => simpa [lt_ceilDiv_iff hs] using hd
  | succ k =>
    rw [Nat.succ_lt_succ_iff, lt_ceilDiv_iff hs, lt_ceilDiv_iff hs, Nat.succ_mul]
    omega

theorem progression_nil (first step : Int) {distance : Int} (h : distance ≤ 0) :
    progression first step distance = [] := by
  rw [progression, Int.toNat_of_nonpos h, zero_ceilDiv, List.range_zero, List.map_nil]

theorem progression_cons (first : Int) {step distance : Int} (hstep : step ≠ 0)
    (h : 0 < distance) :
    progression first step distance =
      first :: progression (first + step) step (distance - step.natAbs) := by
  have hdistance : (distance - step.natAbs).toNat = distance.toNat - step.natAbs := by omega
  rw [progression, progression, hdistance, ceilDiv_eq_succ (by omega) (by omega),
    List.range_succ_eq_map, List.map_cons, List.map_map]
  congr 1
  · simp
  · refine List.map_congr_left fun k _ => ?_
    simp only [Function.comp_apply]
    push_cast
    ring

theorem mem_progression {first step distance i : Int} (hstep : step ≠ 0)
    (h : i ∈ progression first step distance) :
    ∃ k : Nat, i = first + k * step ∧ k * (step.natAbs : Int) < distance := by
  obtain ⟨k, hk, rfl⟩ := List.mem_map.mp h
  rw [List.mem_range, lt_ceilDiv_iff (by omega)] at hk
  have hdistance := Int.lt_toNat.mp hk
  rw [Nat.cast_mul] at hdistance
  exact ⟨k, rfl, hdistance⟩

theorem progression_ascending (first : Int) {step : Int} (distance : Int) (hstep : 0 < step) :
    (progression first step distance).Pairwise (· < ·) := by
  refine List.pairwise_lt_range.map _ fun i j hij => ?_
  have hsteps : (i : Int) * step < j * step :=
    Int.mul_lt_mul_of_pos_right (Int.ofNat_lt.mpr hij) hstep
  omega

theorem progression_descending (first : Int) {step : Int} (distance : Int) (hstep : step < 0) :
    (progression first step distance).Pairwise (· > ·) := by
  refine List.pairwise_lt_range.map _ fun i j hij => ?_
  have hsteps : (j : Int) * step < i * step :=
    Int.mul_lt_mul_of_neg_right (Int.ofNat_lt.mpr hij) hstep
  omega

theorem ascending_eq {step upper i : Int} (hstep : 0 < step) (hi : 0 ≤ i)
    (hupper : upper ≤ Word.greatest) :
    (ascending step upper i).map Int.ofNat = progression i step (upper - i) := by
  induction i using ascending.induct step upper with
  | case1 i hmore hfits ih =>
    rw [ascending, if_pos hmore, if_pos hfits, List.map_cons, ih (by omega),
      progression_cons i (by omega) (by omega)]
    have hrest : upper - (i + step) = upper - i - step.natAbs := by omega
    rw [hrest]
    exact congrArg (· :: _) (Int.toNat_of_nonneg hi)
  | case2 i hmore hfits =>
    -- the next sum does not fit, so it lies beyond the bound, which does
    have hbeyond : Word.greatest < i + step := by
      rw [Word.fits_iff, Word.least] at hfits
      omega
    rw [ascending, if_pos hmore, if_neg hfits, progression_cons i (by omega) (by omega),
      progression_nil _ _ (by omega)]
    exact congrArg (· :: _) (Int.toNat_of_nonneg hi)
  | case3 i hdone =>
    rw [ascending, if_neg hdone, progression_nil _ _ (by omega)]
    rfl

theorem descending_eq {step lower i : Int} (hstep : step < 0) (hlower : -1 ≤ lower)
    (hi : i ≤ Word.greatest) :
    (descending step lower i).map Int.ofNat = progression i step (i - lower) := by
  induction i using descending.induct step lower with
  | case1 i hmore hfits ih =>
    rw [descending, if_pos hmore, if_pos hfits, List.map_cons, ih (by omega),
      progression_cons i (by omega) (by omega)]
    have hrest : i + step - lower = i - lower - step.natAbs := by omega
    rw [hrest]
    exact congrArg (· :: _) (Int.toNat_of_nonneg (by omega))
  | case2 i hmore hfits =>
    have hbeyond : i + step < Word.least := by
      rw [Word.fits_iff] at hfits
      omega
    rw [Word.least] at hbeyond
    rw [descending, if_pos hmore, if_neg hfits, progression_cons i (by omega) (by omega),
      progression_nil _ _ (by omega)]
    exact congrArg (· :: _) (Int.toNat_of_nonneg (by omega))
  | case3 i hdone =>
    rw [descending, if_neg hdone, progression_nil _ _ (by omega)]
    rfl

/-- A bound as a position: a negative one counts back from the end. -/
def counted (length bound : Int) : Int := if bound < 0 then bound + length else bound

/-- The positions that a slice selects, in their order. -/
def selection (start stop : Option Int) (step length : Int) : List Int :=
  if 0 < step then
    let lower := max 0 (min length (counted length (start.getD 0)))
    let upper := max 0 (min length (counted length (stop.getD length)))
    progression lower step (upper - lower)
  else if step < 0 then
    let upper := max (-1) (min (length - 1) (counted length (start.getD (length - 1))))
    let lower := max (-1) (min (length - 1) ((stop.map (counted length)).getD (-1)))
    progression upper step (upper - lower)
  else []

/-- Saturation makes no difference to a clamped bound. -/
theorem clamp_fromStart {low high length : Int} (bound : Int) (hlow : -1 ≤ low) :
    clamp low high (fromStart length bound) = max low (min high (counted length bound)) := by
  rw [clamp, fromStart, counted, Word.least]
  split <;> split <;> omega

theorem mem_selection {start stop : Option Int} {step length i : Int}
    (h : i ∈ selection start stop step length) : 0 ≤ i ∧ i < length := by
  rw [selection] at h
  dsimp only at h
  split at h
  · next hstep =>
    obtain ⟨k, rfl, hk⟩ := mem_progression (by omega) h
    rw [Int.natAbs_of_nonneg hstep.le] at hk
    have hsteps : 0 ≤ k * step := Int.mul_nonneg (Int.natCast_nonneg k) hstep.le
    omega
  split at h
  · next hstep =>
    obtain ⟨k, rfl, hk⟩ := mem_progression (by omega) h
    rw [Int.ofNat_natAbs_of_nonpos hstep.le, Int.mul_neg] at hk
    have hsteps : k * step ≤ 0 :=
      Int.mul_nonpos_of_nonneg_of_nonpos (Int.natCast_nonneg k) hstep.le
    omega
  · cases h

theorem selection_ascending (start stop : Option Int) {step : Int} (length : Int)
    (hstep : 0 < step) : (selection start stop step length).Pairwise (· < ·) := by
  rw [selection, if_pos hstep]
  exact progression_ascending _ _ hstep

theorem selection_descending (start stop : Option Int) {step : Int} (length : Int)
    (hstep : step < 0) : (selection start stop step length).Pairwise (· > ·) := by
  rw [selection, if_neg (by omega), if_pos hstep]
  exact progression_descending _ _ hstep

end Slice

theorem slicePositions_eq (start stop step : Option Int) {length : Nat}
    (h : (length : Int) ≤ Word.greatest) :
    (slicePositions start stop step length).map Int.ofNat =
      Slice.selection start stop (step.getD 1) length := by
  have hbounded : Slice.bounded length = length := min_eq_left h
  unfold slicePositions Slice.selection
  simp only [hbounded]
  split
  · next hnone =>
    -- without a step or without elements the bounds meet
    split
    · exact (Slice.progression_nil _ _ (by omega)).symm
    · split
      · exact (Slice.progression_nil _ _ (by omega)).symm
      · rfl
  split
  · next hstep =>
    rw [Slice.clamp_fromStart _ (by omega), Slice.clamp_fromStart _ (by omega),
      Slice.ascending_eq hstep (by omega) (by omega)]
  · next hstep =>
    rw [if_pos (by omega), Slice.clamp_fromStart _ (by omega)]
    cases stop with
    | none =>
      have hend : max (-1) (min ((length : Int) - 1) (-1)) = -1 := by omega
      dsimp only [Option.map_none, Option.getD_none]
      rw [Slice.descending_eq (by omega) (by omega) (by omega), hend]
    | some stop =>
      dsimp only
      rw [Slice.clamp_fromStart _ (by omega), Slice.descending_eq (by omega) (by omega) (by omega)]
      rfl

/-- A slice selects the standard's positions, whatever its bounds and its step are. They are
positions of the array and go in one direction. -/
theorem slicePositions_exact (start stop step : Option Int) {length : Nat} (h : length < 2 ^ 63) :
    (slicePositions start stop step length).map Int.ofNat =
        Slice.selection start stop (step.getD 1) length ∧
      (∀ i ∈ slicePositions start stop step length, i < length) ∧
      (0 < step.getD 1 → (slicePositions start stop step length).Pairwise (· < ·)) ∧
      (step.getD 1 < 0 → (slicePositions start stop step length).Pairwise (· > ·)) := by
  have hlength : (length : Int) ≤ Word.greatest := by
    rw [Word.greatest]
    omega
  have heq := slicePositions_eq start stop step hlength
  refine ⟨heq, fun i hi => ?_, fun hstep => ?_, fun hstep => ?_⟩
  · have hmem : (i : Int) ∈ Slice.selection start stop (step.getD 1) length := by
      rw [← heq]
      exact List.mem_map_of_mem hi
    exact Int.ofNat_lt.mp (Slice.mem_selection hmem).2
  · have hascending := Slice.selection_ascending start stop length hstep
    rw [← heq, List.pairwise_map] at hascending
    exact hascending.imp Int.ofNat_lt.mp
  · have hdescending := Slice.selection_descending start stop length hstep
    rw [← heq, List.pairwise_map] at hdescending
    exact hdescending.imp Int.ofNat_lt.mp

theorem slicePositions_exact_extremes :
    5 < 2 ^ 63 ∧
      (slicePositions (some Word.least) none (some Word.greatest) 5).map Int.ofNat = [0] ∧
      (slicePositions (some Word.greatest) (some 0) (some (-2)) 5).map Int.ofNat = [4, 2] ∧
      (slicePositions (some Word.greatest) (some 0) (some (-2)) 5).Pairwise (· > ·) := by
  have hlength : 5 < 2 ^ 63 := by decide
  have hforward := slicePositions_exact (some Word.least) none (some Word.greatest) hlength
  have hbackward := slicePositions_exact (some Word.greatest) (some 0) (some (-2)) hlength
  exact ⟨hlength, hforward.1.trans (by decide), hbackward.1.trans (by decide),
    hbackward.2.2.2 (by decide)⟩

end JsonPath
