import JsClass.Grammar.PrivateElement

/-! Classes. Their code is strict, and in the dialect with private members each body has its own
private names. -/
namespace JsClass

def Node.isConstructor (n : Node) : Bool :=
  match n.shape with
  | .method _ _ .constructor .. => true
  | _ => false

namespace Grammar

open JsClass.Parser

/-- The name of a class, which a declaration must have. -/
def className? (isExpression : Bool) : Parser (Option Node) := do
  let t ← peek
  if t.kind.isName then return some (← ident).node
  else if isExpression then return none
  else reject .missingClassName t.pos

variable (g : Grammar)

/-- One member of a class; a stray semicolon is none. -/
def classElement : Parser (Option Node) := do
  if ← accept .semicolon then return none
  else match (← context).dialect with
    | .plain => return some (← g.plainElement)
    | .withPrivate => return some (← g.privateDialectElement)

/-- The members of a class up to and with the closing brace, at most one of them a constructor. -/
def classMembers : Parser (List Node) := do
  let _ ← expect .lbrace
  collectFrom (fun hasConstructor => do
    if ← accept .rbrace then return .stop []
    else if ← atEnd then unexpectedNext
    else match ← g.classElement with
      | none => return .more [] hasConstructor
      | some member =>
        if member.isConstructor && hasConstructor then reject .duplicateConstructor member.pos
        else return .more [member] (hasConstructor || member.isConstructor)) g.turns false

/-- The class that a declaration or an expression extends. -/
def superclass? : Parser (Option Node) := do
  if ← acceptKeyword .extends_ then return some (← g.subscripted) else return none

def classRest (isExpression : Bool) : Parser Node := do
  let t ← expectKeyword .class_
  within ({ · with strict := true }) do
    let name ← className? isExpression
    let superclass ← g.superclass?
    let members ← g.classMembers
    return t.node (.class_ name superclass members isExpression)

def class_ (isExpression : Bool) : Parser Node := do
  match (← context).dialect with
  | .plain => g.classRest isExpression
  | .withPrivate => inClassBody (g.classRest isExpression)

end Grammar

end JsClass
