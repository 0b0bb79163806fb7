import JsClass.Numeral.Binary64
import JsClass.Numeral.Integer

/-!
Decimal numbers in text: digits, a point, digits, and an exponent. At least one digit stands
before the exponent, and underscores stand only between two digits.
-/
namespace JsClass.Numeral

def isDecimalDigit (c : Char) : Bool := (Text.decimalValue? c).isSome

/-- Removes underscores; one that is not between two digits is refused. -/
def dropUnderscores? : List Char → Option (List Char)
  | [] => some []
  | c :: '_' :: d :: rest =>
    if isDecimalDigit c && isDecimalDigit d then (dropUnderscores? (d :: rest)).map (c :: ·)
    else none
  | c :: rest => if c == '_' then none else (dropUnderscores? rest).map (c :: ·)

/-- The number that a run of decimal digits denotes. -/
def decimalDigits (cs : List Char) : Nat :=
  cs.foldl (fun n c => n * 10 + (Text.decimalValue? c).getD 0) 0

/-- The exponent part, which is empty or a mark, a sign and at least one digit. -/
def exponent? : List Char → Option Int
  | [] => some 0
  | mark :: rest =>
    if mark == 'e' || mark == 'E' then
      let (negative, digits) := match rest with
        | '-' :: ds => (true, ds)
        | '+' :: ds => (false, ds)
        | ds => (false, ds)
      if !digits.isEmpty && digits.all isDecimalDigit then
        some (if negative then -(decimalDigits digits : Int) else decimalDigits digits)
      else none
    else none

/-- The number nearest to an unsigned decimal. -/
def unsigned? (negative : Bool) (cs : List Char) : Option Binary64 :=
  let whole := cs.takeWhile isDecimalDigit
  let afterWhole := cs.dropWhile isDecimalDigit
  let (places, rest) := match afterWhole with
    | '.' :: r => (r.takeWhile isDecimalDigit, r.dropWhile isDecimalDigit)
    | r => ([], r)
  if whole.isEmpty && places.isEmpty then none
  else do
    let exp ← exponent? rest
    return .ofDecimal negative (decimalDigits (whole ++ places)) (exp - places.length)

/-- The number nearest to the decimal written in `cs`. -/
def float? (cs : List Char) : Option Binary64 := do
  match ← dropUnderscores? (trimPadding cs) with
  | '+' :: rest => unsigned? false rest
  | '-' :: rest => unsigned? true rest
  | rest => unsigned? false rest

end JsClass.Numeral
