import JsClass.Grammar.Statement
import JsClass.Token.Stream

/-!
Programs. The rules are tied together level by level: a level may come back to the one below it,
and one level more than there are tokens is enough for every program.
-/
namespace JsClass

namespace Grammar

open JsClass.Parser

/-- The rules when no token may be taken any more. -/
def exhausted : Grammar where
  turns := 0
  statement := fail .exhausted
  assignment := fail .exhausted
  unary := fail .exhausted
  subscripted := fail .exhausted
  atom := fail .exhausted

/-- The rules that come back to those of `g`. -/
def next (g : Grammar) : Grammar where
  turns := g.turns + 1
  statement := { g with turns := g.turns + 1 }.statementRule
  assignment := { g with turns := g.turns + 1 }.assignmentRule
  unary := { g with turns := g.turns + 1 }.unaryRule
  subscripted := { g with turns := g.turns + 1 }.subscriptedRule
  atom := { g with turns := g.turns + 1 }.atomRule

/-- The rules down to the given depth. -/
def level : Nat → Grammar
  | 0 => exhausted
  | n + 1 => (level n).next

/-- All statements of a program. -/
def program (g : Grammar) : Parser (List Node) := g.statementsUntil fun _ => false

end Grammar

/-- The context of a program's first statement. -/
def Context.initial (d : Dialect) (options : Options) (finish : Token) : Context where
  dialect := d
  options := options
  finish := finish
  strict := options.sourceType == .module
  inFunction := false
  inAsync := false
  inGenerator := false
  inStaticField := false
  inPrivateMethod := false

namespace TokenStream

/-- Parses the statements of a stream and keeps the state, for what was reported. -/
def statements (d : Dialect) (options : Options) (s : TokenStream) : Reply (List Node) :=
  (Grammar.level (s.tokens.length + 1)).program (.initial d options s.finish)
    ⟨s.tokens, [], .empty⟩

end TokenStream

end JsClass
