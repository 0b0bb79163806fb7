import JsClass.Grammar.Repeat
import JsClass.Grammar.Word

/-!
The grammar is written by open recursion: every rule takes the rules it may come back to as a
`Grammar`, and comes back to them only behind a token it has taken. So a grammar that is good for
`n` tokens gives one that is good for `n + 1`.
-/
namespace JsClass

/-- The rules that other rules come back to. -/
structure Grammar where
  /-- How many turns a repetition may take. -/
  turns : Nat
  statement : Parser Node
  assignment : Parser Node
  unary : Parser Node
  subscripted : Parser Node
  atom : Parser Node

namespace Grammar

open JsClass.Parser

/-- Expressions with commas between them; more than one make a sequence. -/
def commaExpression (turns : Nat) (assignment : Parser Node) : Parser Node := do
  let first ← assignment
  if ← check .comma then
    let rest ← collect turns do
      if ← accept .comma then return .more [← assignment] () else return .stop []
    return first.wrap (.sequence (first :: rest))
  else return first

variable (g : Grammar)

def expression : Parser Node := commaExpression g.turns g.assignment

/-- An expression in parentheses that belong to a statement. -/
def parenthesized : Parser Node := do
  let _ ← expect .lparen
  let e ← g.expression
  let _ ← expect .rparen
  return e

/-- Statements up to a token that ends them, or the end of input. -/
def statementsUntil (ends : Kind → Bool) : Parser (List Node) :=
  collect g.turns do
    let t ← peek
    if ends t.kind || t.kind == .eof then return .stop []
    else return .more [← g.statement] ()

def block : Parser Node := do
  let t ← expect .lbrace
  let statements ← g.statementsUntil (· == .punct .rbrace)
  let _ ← expect .rbrace
  return t.node (.block statements)

end Grammar

end JsClass
