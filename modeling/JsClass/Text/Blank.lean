import JsClass.Text.Ranges

/-! Blanks: the characters that separate words, line breaks among them. -/
namespace JsClass.Text

def blankRanges : Ranges :=
  [(0x9, 0xD), (0x1C, 0x20), (0x85, 0x85), (0xA0, 0xA0), (0x1680, 0x1680), (0x2000, 0x200A),
   (0x2028, 0x2029), (0x202F, 0x202F), (0x205F, 0x205F), (0x3000, 0x3000)]

def isBlank (c : Char) : Bool := blankRanges.contains c.toNat

/-- The four line terminators: LF, CR and the two Unicode separators. -/
def isLineTerminator (c : Char) : Bool :=
  c == '\n' || c == '\r' || c == '\u2028' || c == '\u2029'

/-- The two line terminators that end a line comment and may not stand in a string. -/
def isLineEnd (c : Char) : Bool := c == '\n' || c == '\r'

end JsClass.Text
