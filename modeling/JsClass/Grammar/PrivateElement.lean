import JsClass.Grammar.ClassElement

/-! Static members and members with a private key, which are methods or fields. -/
namespace JsClass.Grammar

open JsClass.Parser

/-- Whether a private key comes next, perhaps behind a star, `async`, `get` or `set`. -/
def startsPrivateElement : Parser Bool := do
  let t ← peek
  let next ← peekAt 1
  let offset :=
    if t.kind == .punct .star then 1
    else if isMemberFollower next.kind then 0
    else if t.kind == .name "async" && !next.newlineBefore then
      if next.kind == .punct .star then 2 else 1
    else if t.kind == .name "get" || t.kind == .name "set" then 1
    else 0
  return (← peekAt offset).kind.isPrivateName

/-- What the private name of a member is declared as. -/
def elementKind (h : Head) : Parser ElementKind := do
  match h.modifiers.accessor with
  | some a => return a.elementKind
  | none => if ← check .lparen then return .method else return .field

/-- A private key, which is declared in the class. -/
def privateKey (h : Head) : Parser PropertyKey := do
  let name ← privateName
  if h.isStatic && name.name == "constructor" then reject .privateStaticConstructor name.pos
  else
    let kind ← elementKind h
    onScope (·.declare name.name kind h.pos)
    return ⟨⟨.privateName name.name, name.pos⟩, false⟩

/-- Refuses a static member that is called like the constructor, accessors apart. -/
def checkStaticConstructor (h : Head) (key : PropertyKey) : Parser Unit :=
  if h.isStatic && h.modifiers.accessor.isNone && key.name? == some (.ofString "constructor") then
    reject .staticConstructor key.node.pos
  else return ()

variable (g : Grammar)

/-- A field with a private key takes no modifiers, and a static one is not named `prototype`. -/
def privateField (h : Head) (key : PropertyKey) : Parser Node := do
  if !h.modifiers.areAbsent then unexpectedNext
  else match key.node.shape with
    | .privateName name =>
      if h.isStatic && name == "prototype" then reject .privateStaticPrototype key.node.pos
      else g.fieldElement h key
    | _ => g.fieldElement h key

/-- A static member without modifiers is a field unless parameters follow its key. -/
def methodOrField (h : Head) (key : PropertyKey) : Parser Node := do
  let hasParams ← check .lparen
  let edition := (← context).options.edition
  let member ←
    if h.isStatic && h.modifiers.areAbsent && 8 ≤ edition.number && !hasParams then
      g.fieldElement h key
    else g.methodElement h key h.modifiers.methodKind
  checkStaticConstructor h key
  return member

/-- A member from its key on. -/
def elementRest (h : Head) : Parser Node := do
  match h.key with
  | some key => g.methodOrField h key
  | none =>
    if (← peek).kind.isPrivateName then
      let key ← privateKey h
      if ← check .lparen then g.methodOrField h key else g.privateField h key
    else
      let key ← g.propertyKey
      if key.name? == some (.ofString "prototype") then reject .staticPrototype key.node.pos
      else g.methodOrField h key

/-- A member that starts with `async`, which may also be the name of a static field. -/
def asyncElement (h : Head) : Parser Node := do
  let next ← peekAt 1
  if h.isStatic && (next.kind == .punct .semicolon || next.kind == .punct .eq) then
    let name ← propertyWord
    g.fieldElement h ⟨name.node, false⟩
  else
    let (isAsync, h) ← tryModifier h "async" true
    if isAsync then g.elementRest (← asyncHead h) else g.elementRest h

/-- A static member behind `static`, or a member with a private key. -/
def extendedElement (h : Head) : Parser Node := do
  if ← accept .star then g.elementRest { h with modifiers := ⟨false, true, none⟩ }
  else
    let edition := (← context).options.edition
    let isAsync ← checkWord "async"
    if 8 ≤ edition.number && isAsync then g.asyncElement h
    else g.elementRest (← accessorWord h)

/-- A member of a class in the dialect with private members. A member that is neither static nor
private is read again by the plain rule. -/
def privateDialectElement : Parser Node := do
  let start ← peek
  let before ← pending
  let (isStatic, h) ← tryModifier (.start start) "static" false
  if isStatic then g.extendedElement { h with isStatic := true }
  else
    restore before
    if ← startsPrivateElement then g.extendedElement (.start start) else g.plainElement

end JsClass.Grammar
