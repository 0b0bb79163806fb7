import JsClass.Numeral.Integer
import JsClass.Source.Run
import JsClass.Token.Error

/-!
Scanning and decoding of string literals. A literal is a sequence of segments between quotes; a
segment is a plain character or an escape, and denotes a text.
-/
namespace JsClass.StringLiteral

/-- A part of a text that was read: its spelling, the text it denotes, and what is behind it. -/
structure Segment where
  spelling : List Char
  value : Text
  rest : List Char

/-- The character behind a backslash that denotes one control character. -/
def control? (c : Char) : Option Char :=
  if c == 'n' then some '\n'
  else if c == 't' then some '\t'
  else if c == 'r' then some '\r'
  else if c == 'b' then some '\x08'
  else if c == 'f' then some '\x0c'
  else if c == 'v' then some '\x0b'
  else none

def hexValue? (c : Char) : Option Nat :=
  if c.toNat < 0x80 then Numeral.digitValue? 16 c else none

/-- Exactly `length` hexadecimal digits. -/
def hexDigits? : Nat → Nat → List Char → Option (Nat × List Char × List Char)
  | 0, value, rest => some (value, [], rest)
  | _ + 1, _, [] => none
  | length + 1, value, c :: cs => do
    let d ← hexValue? c
    let (value, digits, rest) ← hexDigits? length (value * 16 + d) cs
    return (value, c :: digits, rest)

/-- The code point with a given number, reported as a bad or an excessive escape otherwise. -/
def codePoint (n : Nat) : Except LexicalFault CodePoint :=
  match CodePoint.ofNat? n with
  | some p => .ok p
  | none => .error (.cause .codePointOutOfBounds)

/-- An escape of a fixed number of digits, behind its letter. -/
def fixedEscape (letter : Char) (length : Nat) (cs : List Char) : Except LexicalFault Segment :=
  match hexDigits? length 0 cs with
  | none => .error (.cause .badEscape)
  | some (n, digits, rest) => do
    let p ← codePoint n
    return ⟨letter :: digits, [p], rest⟩

/-- The fault of an escape whose number is `-(n + 1)`. -/
def negativeFault (n : Nat) : LexicalFault :=
  if n < 0x80000000 then .negativeCodePoint else .codePointUnderflow

/-- An escape in braces, behind the opening one. What stands in the braces is read as an integer
in base sixteen. -/
def bracedEscape (cs : List Char) : Except LexicalFault Segment :=
  match splitWhile (· != '\x7d') cs with
  | (_, []) | ([], _) => .error (.cause .badEscape)
  | (body, brace :: rest) =>
    match Numeral.integer? 16 body with
    | none => .error (.cause .badEscape)
    | some (.ofNat n) => do
      let p ← codePoint n
      return ⟨'u' :: '\x7b' :: body ++ [brace], [p], rest⟩
    | some (.negSucc n) => .error (negativeFault n)

/-- The escape behind a backslash. -/
def escape : List Char → Except LexicalFault Segment
  | [] => .error (.cause .unterminatedString)
  | 'x' :: rest => fixedEscape 'x' 2 rest
  | 'u' :: '\x7b' :: rest => bracedEscape rest
  | 'u' :: rest => fixedEscape 'u' 4 rest
  | '\r' :: '\n' :: rest => .ok ⟨['\r', '\n'], [], rest⟩
  | c :: rest =>
    match control? c with
    | some d => .ok ⟨[c], [.ofChar d], rest⟩
    | none =>
      if c == '0' && !rest.head?.any Text.isDigit then .ok ⟨[c], [⟨0, by decide⟩], rest⟩
      else if Text.isLineTerminator c then .ok ⟨[c], [], rest⟩
      else if Text.isDigit c then .error (.cause .octalEscape)
      else .ok ⟨[c], [.ofChar c], rest⟩

/-- The segments up to and with the closing quote. Each takes a character at least, so a text of
`fuel` characters is read to its end. -/
def body (quote : Char) : Nat → List Char → Except LexicalFault Segment
  | 0, _ | _, [] => .error (.cause .unterminatedString)
  | fuel + 1, c :: cs => do
    if c == quote then return ⟨[c], [], cs⟩
    else if c == '\\' then
      let s ← escape cs
      let r ← body quote fuel s.rest
      return ⟨c :: s.spelling ++ r.spelling, s.value ++ r.value, r.rest⟩
    else if Text.isLineEnd c then .error (.cause .unterminatedString)
    else
      let r ← body quote fuel cs
      return ⟨c :: r.spelling, .ofChar c :: r.value, r.rest⟩

/-- A string literal behind its opening quote. -/
def scan (quote : Char) (cs : List Char) : Except LexicalFault Segment := do
  let s ← body quote cs.length cs
  return { s with spelling := quote :: s.spelling }

end JsClass.StringLiteral
