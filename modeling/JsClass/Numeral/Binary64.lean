/-!
Binary floating-point numbers of 64 bits, and rounding of a positive fraction to the nearest of
them, a tie to the even one.
-/
namespace JsClass

/-- A binary64 number by its bits: sign, 11 bits of exponent, 52 of fraction. -/
structure Binary64 where
  bits : UInt64
deriving DecidableEq

namespace Binary64

/-- `num / den` rounded to the nearest integer, a tie to the even one. -/
def roundDiv (num den : Nat) : Nat :=
  let q := num / den
  let r := num % den
  if 2 * r < den then q
  else if den < 2 * r then q + 1
  else if q % 2 = 0 then q else q + 1

/-- The bit that stands before the fraction in a significand of full length. -/
def hiddenBit : Nat := 0x10000000000000

/-- How many values the exponent bits have. -/
def exponentCount : Nat := 0x800

def signBit : Nat := 0x8000000000000000

/-- The bits of infinity, and so the least bits that stand for no finite number. -/
def infinityBits : Nat := 0x7FF0000000000000

/-- `num / den` as a multiple of `2 ^ exp`, as a fraction. -/
def scale (num den : Nat) (exp : Int) : Nat × Nat :=
  if 0 ≤ exp then (num, den <<< exp.toNat) else (num <<< (-exp).toNat, den)

/-- The exponent of the last place of the numbers around `num / den`: the significand has 53 bits
unless the number is too small for that. -/
def lastPlace (num den : Nat) : Int :=
  let guess := max ((num.log2 : Int) - den.log2 - 53) (-1074)
  let (n, d) := scale num den guess
  if n / d < 2 * hiddenBit then guess else guess + 1

/-- The bits of the number nearest to `num / den`. Counting the bits up from the exponent lets a
significand that rounds up to the next power of two carry into it. -/
def bitsOfFraction (num den : Nat) : Nat :=
  if num = 0 then 0
  else
    let exp := lastPlace num den
    let (n, d) := scale num den exp
    min ((exp + 1074).toNat * hiddenBit + roundDiv n d) infinityBits

/-- The number nearest to `mantissa * 10 ^ exp`. Magnitudes far outside the range are settled
without computing the power. -/
def ofDecimal (negative : Bool) (mantissa : Nat) (exp : Int) : Binary64 :=
  let magnitude := exp + (Nat.toDigits 10 mantissa).length
  let bits :=
    if mantissa = 0 || magnitude < -400 then 0
    else if 400 < magnitude then infinityBits
    else if 0 ≤ exp then bitsOfFraction (mantissa * Nat.pow 10 exp.toNat) 1
    else bitsOfFraction mantissa (Nat.pow 10 (-exp).toNat)
  ⟨UInt64.ofNat (if negative then signBit + bits else bits)⟩

/-- The significand and the exponent of its last place; meant for finite numbers. -/
def parts (x : Binary64) : Nat × Int :=
  let fraction : Nat := x.bits.toNat % hiddenBit
  let biased : Nat := x.bits.toNat / hiddenBit % exponentCount
  if biased = 0 then (fraction, -1074) else (hiddenBit + fraction, (biased : Int) - 1075)

def isNegative (x : Binary64) : Bool := signBit ≤ x.bits.toNat

/-- Whether the exponent bits are all set: an infinity, or no number at all. -/
def isSpecial (x : Binary64) : Bool := x.bits.toNat / hiddenBit % exponentCount == exponentCount - 1

/-- The whole part of the magnitude; meant for finite numbers. -/
def whole (x : Binary64) : Nat :=
  let (m, q) := x.parts
  if 0 ≤ q then m <<< q.toNat else m >>> (-q).toNat

/-- Whether a finite number has no fractional part. -/
def isWhole (x : Binary64) : Bool :=
  let (m, q) := x.parts
  0 ≤ q || m % (1 <<< (-q).toNat) == 0

/-- The number nearest to `x - n`, for a positive `x` that is at least `n`. -/
def minus (x : Binary64) (n : Nat) : Binary64 :=
  if x.isSpecial then x
  else
    let (m, q) := x.parts
    let (num, den) := if 0 ≤ q then (m <<< q.toNat - n, 1)
      else (m - n <<< (-q).toNat, 1 <<< (-q).toNat)
    ⟨UInt64.ofNat (bitsOfFraction num den)⟩

end Binary64

end JsClass
