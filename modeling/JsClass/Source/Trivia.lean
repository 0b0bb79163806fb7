import JsClass.Source.Run
import JsClass.Text.Blank

/-! What stands between tokens: blanks, line comments and block comments. -/
namespace JsClass.Trivia

/-- A line comment runs to the end of the line, which does not belong to it. -/
def lineComment (cs : List Char) : List Char × List Char :=
  splitWhile (fun c => !Text.isLineEnd c) cs

/-- The text up to and with the first end mark of a block comment, and what is behind it. -/
def blockComment? : List Char → Option (List Char × List Char)
  | [] => none
  | '*' :: '/' :: rest => some (['*', '/'], rest)
  | c :: rest => (blockComment? rest).map fun (body, rest) => (c :: body, rest)

end JsClass.Trivia
