import JsClass.Grammar.Expression

/-! Statements and declarations. -/
namespace JsClass.Grammar

open JsClass.Parser

/-- The kind of declaration that comes next. The word `let` declares only before a name. -/
def declarationKind? : Parser (Option VarKind) := do
  match (← peek).kind with
  | .keyword .var_ => return some .var
  | .keyword .const_ => return some .const
  | .name "let" => if (← peekAt 1).kind.isName then return some .let else return none
  | _ => return none

/-- Whether a name and then `in` or `of` come `offset` places ahead. -/
def startsForIn (offset : Nat) : Parser Bool := do
  let name ← peekAt offset
  let next ← peekAt (offset + 1)
  return name.kind.isName && (next.kind == .keyword .in_ || next.kind == .name "of")

variable (g : Grammar)

def declarator (kind : VarKind) : Parser Node := do
  let name ← ident
  if kind != .var && name.name == "let" then reject .letAsLexicalName (← peek).pos
  else match ← g.initializer? with
    | some init => return ⟨.declarator name.node (some init), name.pos⟩
    | none =>
      if kind == .const then reject .missingInitializer (← peek).pos
      else return ⟨.declarator name.node none, name.pos⟩

def varDecl (kind : VarKind) : Parser Node := do
  let t ← advance
  let declarators ← collect g.turns do
    let d ← g.declarator kind
    if ← accept .comma then return .more [d] () else return .stop [d]
  return t.node (.varDecl kind declarators)

def varStatement (kind : VarKind) : Parser Node := do
  let decl ← g.varDecl kind
  semicolon
  return decl

def returnStatement : Parser Node := do
  let t ← expectKeyword .return_
  if !(← context).inFunction then reject .returnOutsideFunction t.pos
  else
    let empty ← check .semicolon
    let ended ← canInsertSemicolon
    if empty || ended then
      semicolon
      return t.node (.return_ none)
    else
      let value ← g.expression
      semicolon
      return t.node (.return_ (some value))

def ifStatement : Parser Node := do
  let t ← expectKeyword .if_
  let condition ← g.parenthesized
  let consequent ← g.statement
  if ← acceptKeyword .else_ then
    return t.node (.if_ condition consequent (some (← g.statement)))
  else return t.node (.if_ condition consequent none)

def whileStatement : Parser Node := do
  let t ← expectKeyword .while_
  let condition ← g.parenthesized
  let body ← g.statement
  return t.node (.while_ condition body)

def doWhileStatement : Parser Node := do
  let t ← expectKeyword .do_
  let body ← g.statement
  let _ ← expectKeyword .while_
  let condition ← g.parenthesized
  let _ ← accept .semicolon
  return t.node (.doWhile body condition)

/-- A loop over keys or values, from `in` or `of` on. -/
def forInRest (t : Token) (left : Node) : Parser Node := do
  if ← acceptKeyword .in_ then
    let right ← g.expression
    let _ ← expect .rparen
    return t.node (.forIn left right (← g.statement) false)
  else
    let _ ← advance
    let right ← g.assignment
    let _ ← expect .rparen
    return t.node (.forIn left right (← g.statement) true)

/-- A part of a loop's head that may be left out before the given punctuator. -/
def optionalBefore (close : Punct) : Parser (Option Node) := do
  if ← check close then return none else return some (← g.expression)

/-- A counting loop, from behind its first part on. -/
def forRest (t : Token) (init : Option Node) : Parser Node := do
  let _ ← expect .semicolon
  let condition ← g.optionalBefore .semicolon
  let _ ← expect .semicolon
  let step ← g.optionalBefore .rparen
  let _ ← expect .rparen
  let body ← g.statement
  return t.node (.for_ init condition step body)

def forStatement : Parser Node := do
  let t ← expectKeyword .for_
  let _ ← expect .lparen
  match ← declarationKind? with
  | some kind =>
    if ← startsForIn 1 then
      let keyword ← advance
      let name ← ident
      g.forInRest t (keyword.node (.varDecl kind [⟨.declarator name.node none, name.pos⟩]))
    else g.forRest t (some (← g.varDecl kind))
  | none =>
    if ← startsForIn 0 then g.forInRest t (← ident).node
    else g.forRest t (← g.optionalBefore .semicolon)

/-- A clause of a switch, from behind its test on. -/
def caseRest (t : Token) (test : Option Node) : Parser Node := do
  let _ ← expect .colon
  let body ← g.statementsUntil fun k =>
    k == .keyword .case_ || k == .keyword .default_ || k == .punct .rbrace
  return t.node (.case_ test body)

/-- The clauses of a switch, at most one of them the default. -/
def switchCases : Parser (List Node) :=
  collectFrom (fun hasDefault => do
    let t ← peek
    match t.kind with
    | .punct .rbrace | .eof => return .stop []
    | .keyword .case_ =>
      let _ ← advance
      let test ← g.expression
      return .more [← g.caseRest t (some test)] hasDefault
    | .keyword .default_ =>
      let _ ← advance
      if hasDefault then reject .multipleDefaults t.pos
      else return .more [← g.caseRest t none] true
    | _ => unexpected t) g.turns false

def switchStatement : Parser Node := do
  let t ← expectKeyword .switch_
  let discriminant ← g.parenthesized
  let _ ← expect .lbrace
  let cases ← g.switchCases
  let _ ← expect .rbrace
  return t.node (.switch_ discriminant cases)

/-- A statement of one word. -/
def wordStatement (shape : Shape Node) : Parser Node := do
  let t ← advance
  semicolon
  return t.node shape

def throwStatement : Parser Node := do
  let t ← expectKeyword .throw_
  if (← peek).newlineBefore then reject .newlineAfterThrow t.pos
  else
    let argument ← g.expression
    semicolon
    return t.node (.throw_ argument)

/-- The name that a handler gives to what it caught. -/
def catchParam? : Parser (Option Node) := do
  if ← accept .lparen then
    let name ← ident
    let _ ← expect .rparen
    return some name.node
  else return none

/-- The handler of a try statement: its parameter and its block. -/
def handler? : Parser (Option Node × Option Node) := do
  if ← acceptKeyword .catch_ then
    let param ← catchParam?
    return (param, some (← g.block))
  else return (none, none)

def finalizer? : Parser (Option Node) := do
  if ← acceptKeyword .finally_ then return some (← g.block) else return none

def tryStatement : Parser Node := do
  let t ← expectKeyword .try_
  let block ← g.block
  let (param, handler) ← g.handler?
  let finalizer ← g.finalizer?
  if handler.isNone && finalizer.isNone then reject .missingHandler t.pos
  else return t.node (.try_ block param handler finalizer)

def expressionStatement : Parser Node := do
  let t ← peek
  let e ← g.expressionRule
  semicolon
  return t.node (.exprStmt e)

/-- A statement that starts with a name or with what can only start an expression. -/
def otherStatement : Parser Node := do
  if ← isAsyncFunction then
    let _ ← advance
    g.function .declaration true
  else g.expressionStatement

/-- A statement that is no declaration of variables. -/
def simpleStatement : Parser Node := do
  let t ← peek
  match t.kind with
  | .punct .lbrace => g.block
  | .punct .semicolon =>
    let _ ← advance
    return t.node .empty
  | .keyword .function_ => g.function .declaration false
  | .keyword .class_ => g.class_ false
  | .keyword .return_ => g.returnStatement
  | .keyword .if_ => g.ifStatement
  | .keyword .while_ => g.whileStatement
  | .keyword .do_ => g.doWhileStatement
  | .keyword .for_ => g.forStatement
  | .keyword .switch_ => g.switchStatement
  | .keyword .break_ => wordStatement .break_
  | .keyword .continue_ => wordStatement .continue_
  | .keyword .try_ => g.tryStatement
  | .keyword .throw_ => g.throwStatement
  | .keyword .debugger_ => wordStatement .debugger
  | .keyword .import_ | .keyword .export_ | .keyword .with_ =>
    reject (.unsupportedStatement (t.kind.word?.getD "")) t.pos
  | _ => g.otherStatement

def statementRule : Parser Node := do
  match ← declarationKind? with
  | some kind => g.varStatement kind
  | none => g.simpleStatement

end JsClass.Grammar
