import JsClass.Numeral.Binary64

/-!
The shortest decimal text of a binary64 number: the fewest digits that read back as the number,
and of those the nearest to it.
-/
namespace JsClass.Binary64

/-- A non-negative fraction. -/
structure Fraction where
  num : Nat
  den : Nat

namespace Fraction

def le (a b : Fraction) : Bool := a.num * b.den ≤ b.num * a.den
def lt (a b : Fraction) : Bool := a.num * b.den < b.num * a.den

/-- `n * base ^ exp`. -/
def scaled (n base : Nat) (exp : Int) : Fraction :=
  if 0 ≤ exp then ⟨n * Nat.pow base exp.toNat, 1⟩ else ⟨n, Nat.pow base (-exp).toNat⟩

/-- The distance between two fractions. -/
def dist (a b : Fraction) : Fraction :=
  let x := a.num * b.den
  let y := b.num * a.den
  ⟨(x - y) + (y - x), a.den * b.den⟩

end Fraction

/-- The reals that round to `m * 2 ^ q`; the ends belong to them when `m` is even. The gap below a
power of two is half as wide as the gap above. -/
def roundsTo (m : Nat) (q : Int) (x : Fraction) : Bool :=
  let low := if m = hiddenBit && -1074 < q then .scaled (4 * m - 1) 2 (q - 2)
    else Fraction.scaled (4 * m - 2) 2 (q - 2)
  let high := Fraction.scaled (4 * m + 2) 2 (q - 2)
  if m % 2 = 0 then low.le x && x.le high else low.lt x && x.lt high

/-- The exponent `k` with `10 ^ (k - 1) ≤ x < 10 ^ k`, found from a guess by stepping. -/
def decimalPoint (x : Fraction) : Nat → Int → Int
  | 0, k => k
  | fuel + 1, k =>
    if !x.lt (.scaled 1 10 k) then decimalPoint x fuel (k + 1)
    else if x.lt (.scaled 1 10 (k - 1)) then decimalPoint x fuel (k - 1)
    else k

/-- The neighbour of `x` on the grid of `n`-digit decimals that reads back, if one does. -/
def neighbour? (m : Nat) (q : Int) (x : Fraction) (k : Int) (n : Nat) : Option Nat :=
  let exp := k - n
  let unit := Fraction.scaled 1 10 exp
  let below := x.num * unit.den / (x.den * unit.num)
  let low := Fraction.scaled below 10 exp
  let high := Fraction.scaled (below + 1) 10 exp
  match roundsTo m q low, roundsTo m q high with
  | true, false => some below
  | false, true => some (below + 1)
  | false, false => none
  | true, true => some (if (low.dist x).le (high.dist x) then below else below + 1)

/-- The digits of the shortest decimal and the place of its point before them. -/
def shortestDigits (m : Nat) (q : Int) : List Char × Int :=
  let x := Fraction.scaled m 2 q
  let guess : Int := ((m.log2 : Int) + q) * 30103 / 100000 + 1
  let k := decimalPoint x 8 guess
  match (List.range 17).findSome? fun n => (neighbour? m q x k (n + 1)).map (n + 1, ·) with
  | some (n, d) =>
    let ds := Nat.toDigits 10 d
    let stripped := (ds.reverse.dropWhile (· == '0')).reverse
    (stripped, k + (ds.length - n : Int))
  | none => (['0'], 1)

/-- Positional when the first digit's place is between the fourth after the point and the
sixteenth before it, and with an exponent of at least two digits otherwise. -/
def layOut (ds : List Char) (k : Int) : List Char :=
  if -4 < k && k ≤ 16 then
    if k ≤ 0 then '0' :: '.' :: List.replicate (-k).toNat '0' ++ ds
    else
      let whole := ds.take k.toNat ++ List.replicate (k.toNat - ds.length) '0'
      let places := ds.drop k.toNat
      whole ++ '.' :: (if places.isEmpty then ['0'] else places)
  else
    let exp := k - 1
    let places := ds.drop 1
    let digits := Nat.toDigits 10 exp.natAbs
    ds.take 1 ++ (if places.isEmpty then [] else '.' :: places)
      ++ 'e' :: (if exp < 0 then '-' else '+') :: List.replicate (2 - digits.length) '0' ++ digits

/-- The text of a number. -/
def render (x : Binary64) : List Char :=
  let sign := if x.isNegative then ['-'] else []
  if x.isSpecial then sign ++ ['i', 'n', 'f']
  else
    let (m, q) := x.parts
    if m = 0 then sign ++ ['0', '.', '0']
    else
      let (ds, k) := shortestDigits m q
      sign ++ layOut ds k

end JsClass.Binary64
