set_option autoImplicit false

/-!
# Signed 64-bit integers

Integers are unbounded throughout; these are the bounds and the reduction that arithmetic on them
keeps.
-/
namespace JsonPath.Word

def least : Int := -9223372036854775808

def greatest : Int := 9223372036854775807

def fits (n : Int) : Bool := least ≤ n && n ≤ greatest

/-- The integer in range that differs from `n` by a multiple of 2 to the 64. -/
def wrap (n : Int) : Int := n.bmod 18446744073709551616

theorem fits_iff (n : Int) : fits n = true ↔ least ≤ n ∧ n ≤ greatest := by
  simp [fits]

theorem fits_wrap (n : Int) : fits (wrap n) = true := by
  have hlow := Int.le_bmod (x := n) (m := 18446744073709551616) (by decide)
  have hhigh := Int.bmod_lt (x := n) (m := 18446744073709551616) (by decide)
  rw [fits_iff, wrap, least, greatest]
  omega

theorem wrap_of_fits {n : Int} (h : fits n = true) : wrap n = n := by
  rw [fits_iff, least, greatest] at h
  exact Int.bmod_eq_of_le (by omega) (by omega)

end JsonPath.Word
