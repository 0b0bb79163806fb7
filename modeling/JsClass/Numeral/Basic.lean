import JsClass.Numeral.Decimal

/-! The value of a numeric literal: an integer of any size, or a binary64 number. -/
namespace JsClass

inductive Numeral where
  | integer (n : Int)
  | float (x : Binary64)
deriving DecidableEq

namespace Numeral

/-- The radix that the text's first two characters mark. -/
def markedRadix? : List Char → Option Nat
  | '0' :: mark :: _ => radixOfMark? mark
  | _ => none

/-- The value of a literal's text. A radix mark makes it an integer, a point or an exponent mark
makes it a decimal, and anything else is an integer in base ten. -/
def ofText? (raw : String) : Option Numeral :=
  let cs := raw.toList
  match markedRadix? cs with
  | some radix => (integer? radix cs).map .integer
  | none =>
    if cs.any (fun c => c == '.' || c == 'e' || c == 'E') then (float? cs).map .float
    else (integer? 10 cs).map .integer

end Numeral

end JsClass
