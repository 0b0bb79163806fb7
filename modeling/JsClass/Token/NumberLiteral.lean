import JsClass.Numeral.Integer
import JsClass.Source.Identifier
import JsClass.Source.Run
import JsClass.Token.Error

/-!
Scanning of numeric literals. Each scanner takes a text and gives back the part that it read and
the rest.
-/
namespace JsClass.NumberLiteral

/-- The digits that a literal of the radix may have. -/
def isRadixDigit (radix : Nat) (c : Char) : Bool :=
  c.toNat < 0x80 && (Numeral.digitValue? radix c).isSome

/-- The point and the digits behind it, if there is a point. -/
def fraction : List Char → List Char × List Char
  | '.' :: rest =>
    let (digits, rest) := splitWhile Text.isDigit rest
    ('.' :: digits, rest)
  | rest => ([], rest)

/-- The sign of an exponent, if it has one. -/
def sign : List Char → List Char × List Char
  | '+' :: rest => (['+'], rest)
  | '-' :: rest => (['-'], rest)
  | rest => ([], rest)

/-- An exponent mark must have digits behind it and its sign. -/
def exponent : List Char → Except LexicalCause (List Char × List Char)
  | [] => .ok ([], [])
  | mark :: rest =>
    if mark == 'e' || mark == 'E' then
      let (sign, rest) := sign rest
      let (digits, rest) := splitWhile Text.isDigit rest
      if digits.isEmpty then .error .invalidNumber else .ok (mark :: sign ++ digits, rest)
    else .ok ([], mark :: rest)

def decimal (cs : List Char) : Except LexicalCause (List Char × List Char) := do
  let (whole, rest) := splitWhile Text.isDigit cs
  let (places, rest) := fraction rest
  let (exp, rest) ← exponent rest
  return (whole ++ places ++ exp, rest)

/-- The digits behind a radix mark. -/
def radixDigits (radix : Nat) (mark : Char) (cs : List Char) :
    Except LexicalCause (List Char × List Char) :=
  let (digits, rest) := splitWhile (isRadixDigit radix) cs
  if digits.isEmpty then .error (.missingDigits radix) else .ok ('0' :: mark :: digits, rest)

def unchecked (cs : List Char) : Except LexicalCause (List Char × List Char) :=
  match cs with
  | '0' :: mark :: rest =>
    match Numeral.radixOfMark? mark with
    | some radix => radixDigits radix mark rest
    | none => decimal cs
  | _ => decimal cs

/-- A numeric literal, which no identifier may touch. -/
def scan (cs : List Char) : Except LexicalCause (List Char × List Char) := do
  let (text, rest) ← unchecked cs
  if rest.head?.any isIdentifierStart then .error .identifierAfterNumber else return (text, rest)

/-- Whether a text starts with a numeric literal: a digit, or a point and a digit. -/
def starts : List Char → Bool
  | [] => false
  | '.' :: rest => rest.head?.any Text.isDigit
  | c :: _ => Text.isDigit c

end JsClass.NumberLiteral
