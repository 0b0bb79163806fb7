import JsClass.Source.Place
import JsClass.Text.CodePoint

/-! A problem shown with the line of source it stands in and a caret below the column. -/
namespace JsClass

/-- The lines of a text, without their ends; there is one more than there are line feeds. -/
def splitLines (cs : List Char) : List (List Char) :=
  match cs with
  | [] => [[]]
  | c :: rest =>
    if c = '\n' then [] :: splitLines rest
    else match splitLines rest with
      | [] => [[c]]
      | line :: lines => (c :: line) :: lines

structure Excerpt where
  level : String
  message : Text
  file : String
  pos : Position

namespace Excerpt

def heading (e : Excerpt) : Text := .ofString (e.level ++ ": ") ++ e.message

def location (e : Excerpt) : String := s!"{e.file}:{e.pos.line}:{e.pos.col}"

/-- The line of source at the position, if it is one of the text. -/
def sourceLine? (e : Excerpt) (source : String) : Option (List Char) :=
  if e.pos.line < 1 then none else (splitLines source.toList)[(e.pos.line - 1).toNat]?

/-- The excerpt without a final line end. A position outside the text is only named. -/
def render (e : Excerpt) (source : String) : Text :=
  match e.sourceLine? source with
  | none => e.heading ++ .ofString s!"\n --> {e.location}"
  | some line =>
    let number := toString e.pos.line
    let pad := String.ofList (List.replicate number.length ' ')
    let caret := String.ofList (List.replicate (e.pos.col - 1).toNat ' ')
    e.heading ++ .ofString s!"\n {pad}--> {e.location}\n {pad} |\n {number} | " ++ .ofChars line
      ++ .ofString s!"\n {pad} | {caret}^"

/-- Why there is no excerpt: the caret would stand too far to the right. -/
inductive Fault where
  /-- The line below the source would fill the memory. -/
  | tooWide
  /-- The column is beyond the signed words of 64 bits. -/
  | overflow
deriving DecidableEq

/-- A line of so many columns fits in memory. -/
def memoryColumns : Int := 0x1000000000

/-- The blanks before a caret at a column up to this one can be counted. -/
def countableColumns : Int := 0x8000000000000000

/-- What is wrong with the column; it matters only where there is a line to point into. -/
def fault? (e : Excerpt) (source : String) : Option Fault :=
  if (e.sourceLine? source).isNone || e.pos.col ≤ memoryColumns then none
  else if e.pos.col ≤ countableColumns then some .tooWide
  else some .overflow

/-- The excerpt at any position, also at one that was not taken from a text. -/
def checked (e : Excerpt) (source : String) : Except Fault Text :=
  match e.fault? source with
  | some fault => .error fault
  | none => .ok (e.render source)

end Excerpt

end JsClass
