set_option autoImplicit false

/-!
# Floats as decimal text

A finite float is written with the fewest digits that read back as the same float, and of those
with the digits nearest to its value. The search is exact: a float is a natural number times a
power of two, so the reals that round to it form an interval whose ends are such products too, and
a decimal is tested against them by comparing natural numbers.
-/
namespace JsonPath

/-- The number `digits * 10 ^ exponent`. -/
structure Decimal where
  digits : Nat
  exponent : Int
  deriving DecidableEq

/-- The number `mantissa * 2 ^ exponent`, the magnitude of a finite binary64 float. -/
structure Binary where
  mantissa : Nat
  exponent : Int
  deriving DecidableEq

namespace Binary

def hiddenBit : Nat := 4503599627370496

/-- The magnitude in the bits of a finite float: subnormal numbers have no hidden bit. -/
def ofBits (bits : Nat) : Binary :=
  let field : Nat := bits / hiddenBit % 2048
  let fraction : Nat := bits % hiddenBit
  if field = 0 then ⟨fraction, -1074⟩ else ⟨fraction + hiddenBit, (field : Int) - 1075⟩

/-- Four times the mantissa of the midpoint below: a power of two has a closer neighbour there. -/
def lower (b : Binary) : Nat :=
  if b.mantissa = hiddenBit ∧ -1074 < b.exponent then 4 * b.mantissa - 1
  else 4 * b.mantissa - 2

def upper (b : Binary) : Nat := 4 * b.mantissa + 2

/-- `2 ^ (exponent - 2) / 10 ^ e` as a fraction of natural numbers. -/
def scale (b : Binary) (e : Int) : Nat × Nat :=
  let two := b.exponent - 2
  (Nat.pow 2 two.toNat * Nat.pow 10 (-e).toNat, Nat.pow 2 (-two).toNat * Nat.pow 10 e.toNat)

/-- Whether `c * 10 ^ e` rounds to the float. The midpoints do so when the mantissa is even. -/
def admits (b : Binary) (c : Nat) (e : Int) : Bool :=
  let (num, den) := b.scale e
  if b.mantissa % 2 = 0 then b.lower * num ≤ c * den && c * den ≤ b.upper * num
  else b.lower * num < c * den && c * den < b.upper * num

/-- The multiple of `10 ^ e` nearest to the float among its two neighbours that round to it. -/
def nearest? (b : Binary) (e : Int) : Option Nat :=
  let (num, den) := b.scale e
  let value := 4 * b.mantissa * num
  let below := value / den
  match b.admits below e, b.admits (below + 1) e with
  | true, true => if 2 * (value % den) < den then some below else some (below + 1)
  | true, false => some below
  | false, true => some (below + 1)
  | false, false => none

/-- Goes down the powers of ten to the first that has a multiple rounding to the float. -/
def search (b : Binary) : Nat → Int → Decimal
  | 0, e => ⟨(b.nearest? e).getD 0, e⟩
  | fuel + 1, e =>
    match b.nearest? e with
    | some c => ⟨c, e⟩
    | none => b.search fuel (e - 1)

/-- The shortest decimal. The first power tried exceeds the float; 40 steps pass 17 digits. -/
def shortest (b : Binary) : Decimal :=
  b.search 40 (((b.mantissa.log2 : Int) + b.exponent + 1) * 3 / 10 + 2)

end Binary

namespace Decimal

def zeros (n : Nat) : List Char := List.replicate n '0'

/-- Written with a point, and at least one digit on either side of it. -/
def positional (digits : List Char) (point : Int) : List Char :=
  if point ≤ 0 then '0' :: '.' :: (zeros (-point).toNat ++ digits)
  else if digits.length ≤ point.toNat then
    digits ++ zeros (point.toNat - digits.length) ++ ['.', '0']
  else digits.take point.toNat ++ '.' :: digits.drop point.toNat

def intChars : Int → List Char
  | .ofNat n => Nat.toDigits 10 n
  | .negSucc n => '-' :: Nat.toDigits 10 (n + 1)

/-- Written as one digit, a fraction if there is one, and a power of ten. -/
def scientific (digits : List Char) (point : Int) : List Char :=
  let fraction := if digits.length ≤ 1 then [] else '.' :: digits.drop 1
  digits.take 1 ++ fraction ++ 'e' :: intChars (point - 1)

/-- Numbers from `1e-4` up to `1e16` are written without an exponent. -/
def chars (d : Decimal) : List Char :=
  let digits := Nat.toDigits 10 d.digits
  let point := (digits.length : Int) + d.exponent
  if -3 ≤ point ∧ point ≤ 16 then positional digits point else scientific digits point

def floatChars (x : Float) : List Char :=
  let bits := x.toBits.toNat
  let sign := if bits < 9223372036854775808 then [] else ['-']
  if x.isNaN then ['N', 'a', 'N']
  else if x.isInf then sign ++ ['i', 'n', 'f']
  else
    let b := Binary.ofBits bits
    if b.mantissa = 0 then sign ++ ['0', '.', '0'] else sign ++ b.shortest.chars

/-- The float nearest to a decimal. Far outside the range of floats the power of ten is not
computed: the result is zero or infinite whatever the digits. -/
def toFloat (d : Decimal) : Float :=
  let magnitude := ((Nat.toDigits 10 d.digits).length : Int) + d.exponent
  if d.digits = 0 ∨ magnitude < -400 then 0.0
  else if 400 < magnitude then 1.0 / 0.0
  else Float.ofScientific d.digits (d.exponent < 0) d.exponent.natAbs

end Decimal
end JsonPath
