import JsClass.Grammar.Function

/-! Property keys, accessors and object literals. -/
namespace JsClass

/-- The two kinds of function that stand for a property. -/
inductive Accessor where
  | get | set
deriving DecidableEq

namespace Accessor

def word : Accessor → String
  | .get => "get"
  | .set => "set"

def propertyKind : Accessor → PropertyKind
  | .get => .get
  | .set => .set

def methodKind : Accessor → MethodKind
  | .get => .get
  | .set => .set

def elementKind : Accessor → ElementKind
  | .get => .get
  | .set => .set

end Accessor

/-- The parameters of a function node. -/
def Node.params (n : Node) : List Node :=
  match n.shape with
  | .function _ _ params .. => params
  | _ => []

def Node.isRest (n : Node) : Bool :=
  match n.shape with
  | .param _ _ rest => rest
  | _ => false

def Node.isIdentifier (n : Node) : Bool :=
  match n.shape with
  | .identifier _ => true
  | _ => false

def Node.isPrivateName (n : Node) : Bool :=
  match n.shape with
  | .privateName _ => true
  | _ => false

/-- The name that a key spells out, as an identifier or as a string. -/
def Node.keyName? (key : Node) : Option Text :=
  match key.shape with
  | .identifier name => some (.ofString name)
  | .string value => some value
  | _ => none

namespace Grammar

open JsClass.Parser

/-- A key of an object's or a class's member, and whether it is computed. -/
structure PropertyKey where
  node : Node
  computed : Bool

/-- The static name of a key. -/
def PropertyKey.name? (k : PropertyKey) : Option Text :=
  if k.computed then none else k.node.keyName?

/-- The literal for a number token. -/
def numberLiteral (t : Token) (raw : String) : Parser Node :=
  match Numeral.ofText? raw with
  | some value => return t.node (.number value raw)
  | none => fail .unreadableNumber

/-- Records what is wrong with the parameters of an accessor. -/
def checkAccessor (accessor : Option Accessor) (function : Node) : Parser Unit :=
  match accessor, function.params with
  | none, _ | some .get, [] => return ()
  | some .get, _ :: _ => report .getterParams function.pos
  | some .set, params => do
    if params.length != 1 then report .setterArity function.pos
    match params with
    | [] => return ()
    | first :: _ => if first.isRest then report .setterRest first.pos else return ()

/-- Tokens that make the word before them a key of its own and no modifier. -/
def endsPropertyKey (k : Kind) : Bool :=
  k == .punct .comma || k == .punct .rbrace || k == .punct .colon || k == .punct .lparen
    || k == .punct .eq

variable (g : Grammar)

def propertyKey : Parser PropertyKey := do
  let t ← peek
  match t.kind with
  | .punct .lbracket =>
    let _ ← advance
    let key ← g.assignment
    let _ ← expect .rbracket
    return ⟨key, true⟩
  | .number raw =>
    let _ ← advance
    return ⟨← numberLiteral t raw, false⟩
  | .string value =>
    let _ ← advance
    return ⟨t.node (.string value), false⟩
  | _ => return ⟨(← propertyWord).node, false⟩

/-- What stands before the key of a member. -/
structure Modifiers where
  isAsync : Bool
  isGenerator : Bool
  accessor : Option Accessor

def Modifiers.absent : Modifiers := ⟨false, false, none⟩

def Modifiers.areAbsent (m : Modifiers) : Bool :=
  !m.isAsync && !m.isGenerator && m.accessor.isNone

/-- A star behind `async`, in the editions that have asynchronous generators. -/
def asyncStar : Parser Bool := do
  if 9 ≤ (← context).options.edition.number then accept .star else return false

/-- The accessor that comes next, if its word is no key of its own. -/
def propertyAccessor? : Parser (Option Accessor) := do
  let next ← peekAt 1
  if endsPropertyKey next.kind then return none
  else if ← acceptKind (.name "get") then return some .get
  else if ← acceptKind (.name "set") then return some .set
  else return none

def propertyModifiers : Parser Modifiers := do
  let edition := (← context).options.edition
  let t ← peek
  let next ← peekAt 1
  if 8 ≤ edition.number && t.kind == .name "async" && !endsPropertyKey next.kind
      && !next.newlineBefore then
    let _ ← advance
    return ⟨true, ← asyncStar, none⟩
  else if ← accept .star then return ⟨false, true, none⟩
  else return ⟨false, false, ← propertyAccessor?⟩

/-- A key, a colon and a value, or a name that is both. -/
def plainProperty (start keyToken : Token) (before : List Token) (key : PropertyKey) :
    Parser Node := do
  if ← accept .colon then
    let value ← g.assignment
    return start.node (.property key.node value .init key.computed false false)
  else if key.node.isIdentifier && !key.computed && keyToken.kind.isName then
    restore before
    let value ← ident
    return start.node (.property key.node value.node .init false true false)
  else unexpectedNext

/-- A property that is a method or an accessor. -/
def methodProperty (start : Token) (key : PropertyKey) (m : Modifiers) : Parser Node := do
  let value ← g.method m.isAsync m.isGenerator
  checkAccessor m.accessor value
  let kind := match m.accessor with
    | some a => a.propertyKind
    | none => .init
  return start.node (.property key.node value kind key.computed false m.accessor.isNone)

def property : Parser Node := do
  let start ← peek
  if ← accept .ellipsis then return start.node (.spread (← g.assignment))
  else
    let m ← propertyModifiers
    let keyToken ← peek
    let before ← pending
    let key ← g.propertyKey
    let hasParams ← check .lparen
    if !m.areAbsent || hasParams then g.methodProperty start key m
    else g.plainProperty start keyToken before key

def object : Parser Node := do
  let t ← expect .lbrace
  let properties ← separated g.turns .rbrace g.property
  return t.node (.object properties)

end Grammar

end JsClass
