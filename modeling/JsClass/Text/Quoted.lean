import JsClass.Text.CodePoint
import JsClass.Text.Printable

/-!
Quoted texts. Single quotes are used unless the text has a single quote and no double quote; the
backslash, the quote in use and whatever cannot be printed are escaped.
-/
namespace JsClass.Text

/-- Lower-case hexadecimal with leading zeros up to `width`. -/
def hexPadded (width n : Nat) : List Char :=
  let digits := Nat.toDigits 16 n
  List.replicate (width - digits.length) '0' ++ digits

/-- The shortest of the three numeric escapes that can hold `n`. -/
def numericEscape (n : Nat) : List Char :=
  if n ≤ 0xFF then '\\' :: 'x' :: hexPadded 2 n
  else if n ≤ 0xFFFF then '\\' :: 'u' :: hexPadded 4 n
  else '\\' :: 'U' :: hexPadded 8 n

def quoteCodePoint (quote : Char) (p : CodePoint) : Text :=
  if p.val = '\\'.toNat then ofString "\\\\"
  else if p.val = quote.toNat then ofChars ['\\', quote]
  else if p.val = '\n'.toNat then ofString "\\n"
  else if p.val = '\r'.toNat then ofString "\\r"
  else if p.val = '\t'.toNat then ofString "\\t"
  else if isPrintable p.val then [p]
  else ofChars (numericEscape p.val)

def quoteFor (t : Text) : Char :=
  if t.contains (.ofChar '\'') && !t.contains (.ofChar '"') then '"' else '\''

def quoted (t : Text) : Text :=
  let quote := quoteFor t
  .ofChar quote :: t.flatMap (quoteCodePoint quote) ++ [.ofChar quote]

end JsClass.Text
