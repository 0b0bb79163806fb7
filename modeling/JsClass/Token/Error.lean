import JsClass.Text.CodePoint

/-! Why a text cannot be cut into tokens. -/
namespace JsClass

inductive LexicalCause where
  | unterminatedComment
  | unterminatedString
  | badEscape
  | codePointOutOfBounds
  | octalEscape
  /-- A radix mark without a digit of that radix. -/
  | missingDigits (radix : Nat)
  /-- An exponent mark without digits. -/
  | invalidNumber
  | identifierAfterNumber
  | unexpectedCharacter (c : Char)
deriving DecidableEq

def LexicalCause.message : LexicalCause → String
  | .unterminatedComment => "Unterminated comment"
  | .unterminatedString => "Unterminated string constant"
  | .badEscape => "Bad character escape sequence"
  | .codePointOutOfBounds => "Code point out of bounds"
  | .octalEscape => "Octal literal in template or strict string"
  | .missingDigits radix => s!"Expected number in radix {radix}"
  | .invalidNumber => "Invalid number"
  | .identifierAfterNumber => "Identifier directly after number"
  | .unexpectedCharacter c => s!"Unexpected character '{c}'"

/-- What stops a scanner: a cause to report, or an escape whose number is below zero and so
denotes nothing that could be reported on. -/
inductive LexicalFault where
  | cause (c : LexicalCause)
  | negativeCodePoint
  /-- The number is below all signed words of 32 bits. -/
  | codePointUnderflow
deriving DecidableEq

end JsClass
