import JsClass.Grammar.Basic

/-! Functions of every kind: declarations, expressions, methods and arrows. -/
namespace JsClass

namespace Context

/-- The inside of a function that has its own `arguments`. -/
def function (isAsync isGenerator : Bool) (c : Context) : Context :=
  { c with
    inFunction := true
    inAsync := isAsync
    inGenerator := isGenerator
    inStaticField := false }

/-- The inside of an arrow function. -/
def arrow (c : Context) : Context := { c with inFunction := true, inGenerator := false }

end Context

namespace Grammar

open JsClass.Parser

/-- The parenthesis behind a rest parameter, which is always the last one. -/
def closeRest : Parser Unit := do
  let t ← peek
  if t.kind == .punct .rparen then
    let _ ← advance
    return ()
  else reject (.restNotLast t.kind.text) t.pos

variable (g : Grammar)

/-- The default value behind a parameter's name, if there is one. -/
def initializer? : Parser (Option Node) := do
  if ← accept .eq then return some (← g.assignment) else return none

def params : Parser (List Node) := do
  let _ ← expect .lparen
  collect g.turns do
    if ← accept .rparen then return .stop []
    else
      let t ← peek
      if ← accept .ellipsis then
        let name ← ident
        closeRest
        return .stop [t.node (.param name.node none true)]
      else
        let name ← ident
        let default ← g.initializer?
        let param := t.node (.param name.node default false)
        if ← check .rparen then return .more [param] ()
        else
          let _ ← expect .comma
          return .more [param] ()

/-- Parameters and body of a function that is no arrow. -/
def functionRest (isAsync isGenerator : Bool) : Parser (List Node × Node) :=
  within (Context.function isAsync isGenerator) do
    let params ← g.params
    let body ← g.block
    return (params, body)

/-- The name of a function; a declaration takes any word for it and must have one. -/
def functionName? (form : FunctionForm) : Parser (Option Node) := do
  let t ← peek
  if t.kind.isName || (form == .declaration && t.kind.word?.isSome) then
    return some (← ident).node
  else if form == .declaration then reject .missingFunctionName t.pos
  else return none

/-- A function from its keyword on. -/
def function (form : FunctionForm) (isAsync : Bool) : Parser Node := do
  let t ← expectKeyword .function_
  let isGenerator ← accept .star
  if isAsync && isGenerator && (← context).options.edition.number < 9 then
    reject .earlyAsyncGenerator t.pos
  else
    let name ← functionName? form
    let (params, body) ← g.functionRest isAsync isGenerator
    return t.node (.function form name params body isAsync isGenerator)

/-- A function from its parameters on, as the value of a method. -/
def method (isAsync isGenerator : Bool) : Parser Node := do
  let t ← peek
  let (params, body) ← g.functionRest isAsync isGenerator
  return t.node (.function .expression none params body isAsync isGenerator)

/-- Whether `async` comes next and makes the function behind it asynchronous. -/
def isAsyncFunction : Parser Bool := do
  let edition := (← context).options.edition
  let t ← peek
  let next ← peekAt 1
  return 8 ≤ edition.number && t.kind == .name "async" && next.kind == .keyword .function_
    && !next.newlineBefore

def isOpening (k : Kind) : Bool :=
  k == .punct .lparen || k == .punct .lbracket || k == .punct .lbrace

def isClosing (k : Kind) : Bool :=
  k == .punct .rparen || k == .punct .rbracket || k == .punct .rbrace

/-- The tokens behind the bracket that closes the `depth` open ones. -/
def afterPartner : Nat → List Token → List Token
  | _, [] => []
  | depth, t :: rest =>
    if isOpening t.kind then afterPartner (depth + 1) rest
    else if isClosing t.kind then
      if depth ≤ 1 then rest else afterPartner (depth - 1) rest
    else afterPartner depth rest

/-- Whether the parenthesis that comes next opens the parameters of an arrow function. -/
def isArrowParams : Parser Bool := do
  let next := (afterPartner 0 (← pending)).headD (← context).finish
  return next.kind == .punct .fatArrow && !next.newlineBefore

/-- An arrow function from its arrow on. -/
def arrow (params : List Node) (start : Token) : Parser Node := do
  let _ ← expect .fatArrow
  within Context.arrow do
    if ← check .lbrace then return start.node (.arrow params (← g.block) false)
    else return start.node (.arrow params (← g.assignment) true)

end Grammar

end JsClass
