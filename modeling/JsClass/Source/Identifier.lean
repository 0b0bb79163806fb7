import JsClass.Text.Digit
import JsClass.Text.Letter

/-! Characters of identifiers: letters, the underscore and the dollar sign, and further in also
numbers of every kind. -/
namespace JsClass

def isIdentifierStart (c : Char) : Bool := Text.isLetter c || c == '_' || c == '$'

def isIdentifierPart (c : Char) : Bool :=
  Text.isLetter c || Text.isNumeric c || c == '_' || c == '$'

theorem isIdentifierPart_of_start {c : Char} (h : isIdentifierStart c) : isIdentifierPart c := by
  simp only [isIdentifierStart, isIdentifierPart, Bool.or_eq_true] at *
  rcases h with (h | h) | h <;> simp [h]

end JsClass
