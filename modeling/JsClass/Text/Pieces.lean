import JsClass.Text.Blank
import JsClass.Text.Quoted

/-!
Wide texts in pieces. A text that does not fit on its line is cut at its line breaks, and a line
that still does not fit is cut behind blanks, with as many words on each piece as fit.
-/
namespace JsClass.Text

/-- The columns of a line. -/
def lineWidth : Nat := 80

def isBlankPoint (p : CodePoint) : Bool := blankRanges.contains p.val

def lineBreakRanges : Ranges :=
  [(0xA, 0xD), (0x1C, 0x1E), (0x85, 0x85), (0x2028, 0x2029)]

def isLineBreak (p : CodePoint) : Bool := lineBreakRanges.contains p.val

/-- The lines of a text with the breaks at their ends; CR and LF together are one break. -/
def brokenLines (t : Text) : List Text :=
  t.splitBy fun p q => !isLineBreak p || (p.val == 0xD && q.val == 0xA)

/-- The words of a text, each with the blanks behind it. -/
def words (t : Text) : List Text := t.splitBy fun p q => !isBlankPoint p || isBlankPoint q

/-- Whether the quoted text fits at a column, with so many columns left free behind it. -/
def fitsAt (column free : Nat) (t : Text) : Bool := column + t.quoted.length + free ≤ lineWidth

/-- Puts words on pieces, beginning with the piece so far; the last word needs free columns
behind it. -/
def fill (column free : Nat) (piece : Text) : List Text → List Text
  | [] => [piece]
  | word :: rest =>
    if fitsAt column (if rest.isEmpty then free else 0) (piece ++ word) then
      fill column free (piece ++ word) rest
    else piece :: fill column free word rest

/-- The pieces of one line. -/
def linePieces (column free : Nat) (line : Text) : List Text :=
  if fitsAt column free line then [line]
  else match words line with
    | [] => [line]
    | word :: rest => fill column free word rest

/-- The pieces of several lines, the last of which needs free columns behind it. -/
def linesPieces (column free : Nat) : List Text → List Text
  | [] => []
  | line :: rest =>
    linePieces column (if rest.isEmpty then free else 0) line ++ linesPieces column free rest

/-- The pieces in which a text is written at a column, with a comma behind it. -/
def pieces (column : Nat) (t : Text) : List Text :=
  if fitsAt column 1 t then [t]
  else match brokenLines t with
    | [] => [t]
    | lines => linesPieces column 1 lines

/-- A text at a column, each piece between quotes of its own. -/
def quotedAt (column : Nat) (t : Text) : Text :=
  (((pieces column t).map quoted).intersperse (ofString " ")).flatten

end JsClass.Text
