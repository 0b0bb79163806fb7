import JsClass.Text.Blank
import JsClass.Text.Digit

/-!
Integers in text: optional sign, optional radix mark, and digits with single underscores between
them, in any script's decimal digits. Blanks around the number are ignored.
-/
namespace JsClass.Numeral

/-- Blanks allowed around a number: the ASCII ones from tab to CR, the space, and all beyond
ASCII. -/
def isPadding (c : Char) : Bool :=
  ('\t' ≤ c && c ≤ '\r') || c == ' ' || (0x7F < c.toNat && Text.isBlank c)

def trimPadding (cs : List Char) : List Char :=
  ((cs.dropWhile isPadding).reverse.dropWhile isPadding).reverse

/-- The value of a digit or letter used as a digit. -/
def alphanumericValue? (c : Char) : Option Nat :=
  match Text.decimalValue? c with
  | some d => some d
  | none =>
    if 'a' ≤ c && c ≤ 'z' then some (c.toNat - 'a'.toNat + 10)
    else if 'A' ≤ c && c ≤ 'Z' then some (c.toNat - 'A'.toNat + 10)
    else none

def digitValue? (base : Nat) (c : Char) : Option Nat :=
  (alphanumericValue? c).filter (· < base)

/-- The value of digits that go on after a digit; an underscore must stand between two of them. -/
def restValue? (base : Nat) : Nat → List Char → Option Nat
  | value, [] => some value
  | value, '_' :: c :: rest => do
    let d ← digitValue? base c
    restValue? base (value * base + d) rest
  | value, c :: rest => do
    let d ← digitValue? base c
    restValue? base (value * base + d) rest

/-- The value of one or more digits with single underscores between them. -/
def digitsValue? (base : Nat) : List Char → Option Nat
  | [] => none
  | c :: rest => do
    let d ← digitValue? base c
    restValue? base d rest

/-- The most digits that base-ten text may have. -/
def maxDecimalDigits : Nat := 4300

/-- A decimal numeral that is longer than the limit is refused. -/
def withinLimit (base : Nat) (digits : List Char) : Bool :=
  base != 10 || digits.countP (· != '_') ≤ maxDecimalDigits

/-- The letter that marks a radix after a leading zero. -/
def radixOfMark? (c : Char) : Option Nat :=
  if c == 'x' || c == 'X' then some 16
  else if c == 'o' || c == 'O' then some 8
  else if c == 'b' || c == 'B' then some 2
  else none

/-- Drops a radix mark that fits `base`, with one underscore after it. The zero before the mark may
be that of any script. -/
def dropMark (base : Nat) : List Char → List Char
  | zero :: mark :: rest =>
    if Text.decimalValue? zero = some 0 && radixOfMark? mark = some base then
      match rest with
      | '_' :: rest => rest
      | rest => rest
    else zero :: mark :: rest
  | cs => cs

def natValue? (base : Nat) (cs : List Char) : Option Nat :=
  let digits := dropMark base cs
  if withinLimit base digits then digitsValue? base digits else none

/-- The integer written in `cs`, read in the given base. -/
def integer? (base : Nat) (cs : List Char) : Option Int :=
  match trimPadding cs with
  | '+' :: rest => (natValue? base rest).map Int.ofNat
  | '-' :: rest => (natValue? base rest).map fun n => -Int.ofNat n
  | rest => (natValue? base rest).map Int.ofNat

end JsClass.Numeral
