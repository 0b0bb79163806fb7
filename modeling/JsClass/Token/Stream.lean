import JsClass.Source.Run
import JsClass.Source.Trivia
import JsClass.Token.Basic
import JsClass.Token.NumberLiteral
import JsClass.Token.StringLiteral
import JsClass.Token.Trie

/-!
Cutting a text into tokens. A text is a sequence of pieces, each a bit of trivia or a token; the
place of a piece is the place behind the pieces before it.
-/
namespace JsClass

def Punct.trie : Trie Punct := .ofTable table

/-- What was read at one place. -/
inductive Piece where
  /-- A blank or a comment, and whether it counts as a line break. -/
  | trivia (breaksLine : Bool)
  | token (kind : Kind)

/-- A piece, its spelling and the text behind it. -/
structure Scanned where
  piece : Piece
  spelling : List Char
  rest : List Char

namespace Scanned

/-- A word: the longest run of identifier characters. -/
def word (cs : List Char) : Scanned :=
  let (word, rest) := splitWhile isIdentifierPart cs
  ⟨.token (.ofWord (.ofList word)), word, rest⟩

/-- A private name, behind its number sign; its word may be empty. -/
def privateName (cs : List Char) : Scanned :=
  let (word, rest) := splitWhile isIdentifierPart cs
  ⟨.token (.privateName (.ofList word)), '#' :: word, rest⟩

/-- The operator that begins with `c`: the longest word of a trie, whose entry gives the kind. -/
def operator {α : Type} (t : Trie α) (kind : α → Kind) (c : Char) (cs : List Char) :
    Except LexicalFault Scanned :=
  match t.longest (c :: cs) with
  | some (a, spelling, rest) => .ok ⟨.token (kind a), spelling, rest⟩
  | none => .error (.cause (.unexpectedCharacter c))

def number (cs : List Char) : Except LexicalFault Scanned :=
  match NumberLiteral.scan cs with
  | .ok (raw, rest) => .ok ⟨.token (.number (.ofList raw)), raw, rest⟩
  | .error e => .error (.cause e)

def string (quote : Char) (cs : List Char) : Except LexicalFault Scanned := do
  let s ← StringLiteral.scan quote cs
  return ⟨.token (.string s.value), s.spelling, s.rest⟩

/-- A token that starts with `c`, where a trie has the operators. -/
def tokenWith {α : Type} (t : Trie α) (kind : α → Kind) (d : Dialect) (c : Char) (cs : List Char) :
    Except LexicalFault Scanned :=
  if d = .withPrivate && c == '#' then .ok (privateName cs)
  else if c == '"' || c == '\'' then string c cs
  else if NumberLiteral.starts (c :: cs) then number (c :: cs)
  else if isIdentifierStart c then .ok (word (c :: cs))
  else operator t kind c cs

def token (d : Dialect) (c : Char) (cs : List Char) : Except LexicalFault Scanned :=
  tokenWith Punct.trie .punct d c cs

def lineComment (cs : List Char) : Scanned :=
  let (text, rest) := Trivia.lineComment cs
  ⟨.trivia false, '/' :: '/' :: text, rest⟩

def blockComment (cs : List Char) : Except LexicalFault Scanned :=
  match Trivia.blockComment? cs with
  | some (text, rest) => .ok ⟨.trivia (text.any Text.isLineEnd), '/' :: '*' :: text, rest⟩
  | none => .error (.cause .unterminatedComment)

/-- The piece that starts with `c`, where a trie has the operators. -/
def nextWith {α : Type} (t : Trie α) (kind : α → Kind) (d : Dialect) (c : Char) (cs : List Char) :
    Except LexicalFault Scanned :=
  if Text.isLineTerminator c then .ok ⟨.trivia true, [c], cs⟩
  else if Text.isBlank c then .ok ⟨.trivia false, [c], cs⟩
  else match c, cs with
    | '/', '/' :: rest => .ok (lineComment rest)
    | '/', '*' :: rest => blockComment rest
    | _, _ => tokenWith t kind d c cs

def next (d : Dialect) (c : Char) (cs : List Char) : Except LexicalFault Scanned :=
  nextWith Punct.trie .punct d c cs

end Scanned

/-- A fault and the position of the piece that it arose in. -/
structure LexicalError where
  fault : LexicalFault
  pos : Position
deriving DecidableEq

namespace TokenStream

/-- The stream of the text `cs` that stands at `place`, where a trie has the operators. Each piece
takes a character at least, so a text of `fuel` characters is read to its end. -/
def scanWith {α : Type} (t : Trie α) (kind : α → Kind) (d : Dialect) :
    Nat → Place → Bool → List Char → Except LexicalError TokenStream
  | 0, place, newline, _ | _, place, newline, [] => .ok ⟨[], ⟨.eof, place, newline⟩⟩
  | fuel + 1, place, newline, c :: cs =>
    match Scanned.nextWith t kind d c cs with
    | .error fault => .error ⟨fault, place.toPosition⟩
    | .ok ⟨.trivia breaksLine, spelling, rest⟩ =>
      scanWith t kind d fuel (place.after spelling) (newline || breaksLine) rest
    | .ok ⟨.token k, spelling, rest⟩ => do
      let s ← scanWith t kind d fuel (place.after spelling) false rest
      return { s with tokens := ⟨k, place, newline⟩ :: s.tokens }

def scan (d : Dialect) (fuel : Nat) (place : Place) (newline : Bool) (cs : List Char) :
    Except LexicalError TokenStream :=
  scanWith Punct.trie .punct d fuel place newline cs

/-- How a stream goes on with a piece. -/
theorem scan_cons (d : Dialect) (fuel : Nat) (place : Place) (newline : Bool) (c : Char)
    (cs : List Char) : scan d (fuel + 1) place newline (c :: cs) =
      match Scanned.next d c cs with
      | .error fault => .error ⟨fault, place.toPosition⟩
      | .ok ⟨.trivia breaksLine, spelling, rest⟩ =>
        scan d fuel (place.after spelling) (newline || breaksLine) rest
      | .ok ⟨.token kind, spelling, rest⟩ => do
        let s ← scan d fuel (place.after spelling) false rest
        return { s with tokens := ⟨kind, place, newline⟩ :: s.tokens } := rfl

/-- The tokens of a source text. -/
def ofChars (d : Dialect) (cs : List Char) : Except LexicalError TokenStream :=
  scan d cs.length .start false cs

def ofString (d : Dialect) (source : String) : Except LexicalError TokenStream :=
  ofChars d source.toList

end TokenStream

end JsClass
