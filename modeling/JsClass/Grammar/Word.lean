import JsClass.Grammar.Parser

/-! Identifiers, reserved words and private names. -/
namespace JsClass

/-- A word that was read, with its position. -/
structure Ident where
  name : String
  pos : Position

def Ident.node (i : Ident) : Node := ⟨.identifier i.name, i.pos⟩

/-- A parameter that is just a name. -/
def Ident.param (i : Ident) : Node := ⟨.param i.node none false, i.pos⟩

/-- Reserved everywhere, unless reserved words are allowed. -/
def reservedWords : List String := ["enum"]

/-- Reserved in strict code. -/
def strictReservedWords : List String :=
  ["implements", "interface", "let", "package", "private", "protected", "public", "static",
   "yield"]

def Context.isReserved (c : Context) (word : String) : Bool :=
  (c.options.reserved != .allowed && reservedWords.contains word)
    || (c.strict && strictReservedWords.contains word)

namespace Parser

/-- Refuses a word that cannot name anything here, and records a reserved one. -/
def checkUnreserved (word : String) (pos : Position) : Parser Unit := do
  let c ← context
  if c.inGenerator && word == "yield" then reject .yieldAsIdentifier pos
  else if c.inAsync && word == "await" then reject .awaitAsIdentifier pos
  else if (Keyword.ofWord? word).isSome then reject (.unexpectedKeyword word) pos
  else if c.isReserved word then report (.reservedWord word) pos
  else return ()

/-- A word in any position, without a look at what it is. -/
def anyWord : Parser Ident := do
  let t ← peek
  match t.kind.word? with
  | none => unexpected t
  | some word =>
    let _ ← advance
    return ⟨word, t.pos⟩

/-- A word that names a binding or a variable. -/
def ident : Parser Ident := do
  let i ← anyWord
  checkUnreserved i.name i.pos
  if (← context).inStaticField && i.name == "arguments" then
    reject .argumentsInFieldValue i.pos
  else return i

/-- Runs the check for words that only the strictest policy refuses. -/
def checkIfNever (i : Ident) : Parser Unit := do
  if (← context).options.reserved == .never then checkUnreserved i.name i.pos else return ()

/-- A word that names a property. -/
def propertyWord : Parser Ident := do
  let i ← anyWord
  checkIfNever i
  return i

/-- A private name, which must have a word behind its number sign. -/
def privateName : Parser Ident := do
  let t ← peek
  match t.kind with
  | .privateName word =>
    let _ ← advance
    if word == "" then reject .missingPrivateWord t.pos
    else
      let i : Ident := ⟨word, t.pos⟩
      checkIfNever i
      return i
  | _ => unexpected t

end Parser

end JsClass
