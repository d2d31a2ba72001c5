import JsonPath.Word

set_option autoImplicit false

/-!
# Positions in arrays

What an index and a slice select from an array of a given length. Sums are kept in 64 bits: a step
that would leave them ends the slice.
-/
namespace JsonPath

/-- The position that an index names; a negative one counts back from the end. -/
def position? (index : Int) (length : Nat) : Option Nat :=
  if 0 ≤ index then
    if index.toNat < length then some index.toNat else none
  else if index.natAbs ≤ length ∧ length - index.natAbs < length then
    some (length - index.natAbs)
  else none

namespace Slice

/-- The length of an array as a 64-bit integer. -/
def bounded (length : Nat) : Int := min (length : Int) Word.greatest

/-- A bound of a slice with a negative one counted back from the end. -/
def fromStart (length bound : Int) : Int :=
  if 0 ≤ bound then bound else max Word.least (length + bound)

def clamp (low high n : Int) : Int := max low (min high n)

/-- The positions from `i` up to `upper`. -/
def ascending (step upper i : Int) : List Nat :=
  if 0 < step ∧ i < upper then
    if Word.fits (i + step) then i.toNat :: ascending step upper (i + step) else [i.toNat]
  else []
termination_by (upper - i).toNat

/-- The positions from `i` down to `lower`. -/
def descending (step lower i : Int) : List Nat :=
  if step < 0 ∧ lower < i then
    if Word.fits (i + step) then i.toNat :: descending step lower (i + step) else [i.toNat]
  else []
termination_by (i - lower).toNat

end Slice

/-- The positions that a slice selects, in the order of selection. -/
def slicePositions (start stop step : Option Int) (length : Nat) : List Nat :=
  let size := Slice.bounded length
  let step := step.getD 1
  if step = 0 ∨ length = 0 then []
  else if 0 < step then
    let lower := Slice.clamp 0 size (Slice.fromStart size (start.getD 0))
    let upper := Slice.clamp 0 size (Slice.fromStart size (stop.getD size))
    Slice.ascending step upper lower
  else
    let upper := Slice.clamp (-1) (size - 1) (Slice.fromStart size (start.getD (size - 1)))
    let lower :=
      match stop with
      | some stop => Slice.clamp (-1) (size - 1) (Slice.fromStart size stop)
      | none => -1
    Slice.descending step lower upper

end JsonPath
