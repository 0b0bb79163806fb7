import JsClass.Grammar.Property

/-!
Members of classes. In the plain dialect every member is a method. With private members, a static
member and a member with a private key may also be a field, and such members are read by a rule
of their own.
-/
namespace JsClass.Grammar

open JsClass.Parser

/-- What is known of a member before its parameters or its value. -/
structure Head where
  pos : Position
  isStatic : Bool
  key : Option PropertyKey
  modifiers : Modifiers

def Head.start (t : Token) : Head := ⟨t.pos, false, none, .absent⟩

def Head.withAccessor (h : Head) (a : Accessor) : Head :=
  { h with modifiers := { h.modifiers with accessor := some a } }

/-- The word of a modifier either modifies the member, or it is the member's own name. -/
inductive ModifierWord where
  | absent
  | modifier
  | name (key : PropertyKey)

/-- Tokens that show the word before them to be a member's name when fields are allowed. -/
def isMemberFollower (k : Kind) : Bool :=
  k == .punct .lparen || k == .punct .eq || k == .punct .semicolon

/-- Whether the next token stands behind a complete name of a member. -/
def endsMemberName : Parser Bool := do
  let t ← peek
  match (← context).dialect with
  | .plain => return t.kind == .punct .lparen
  | .withPrivate => return isMemberFollower t.kind

/-- Takes a modifier's word. If a line break forbids it to modify, it is a name, and so it is if
what follows can only stand behind a name. -/
def modifierWord (word : String) (noLineBreak : Bool) : Parser ModifierWord := do
  let t ← peek
  if ← acceptKind (.name word) then
    let ends ← endsMemberName
    let broken ← canInsertSemicolon
    if ends || (noLineBreak && broken) then
      return .name ⟨t.node (.identifier word), false⟩
    else return .modifier
  else return .absent

/-- Reads a modifier's word into a head, and says whether it modifies. A member that has a name
already cannot take another. -/
def tryModifier (h : Head) (word : String) (noLineBreak : Bool) : Parser (Bool × Head) := do
  match ← modifierWord word noLineBreak with
  | .absent => return (false, h)
  | .modifier => return (true, h)
  | .name key => if h.key.isSome then unexpectedNext else return (false, { h with key := some key })

def accessorWord (h : Head) : Parser Head := do
  let (isGetter, h) ← tryModifier h "get" false
  if isGetter then return h.withAccessor .get
  else
    let (isSetter, h) ← tryModifier h "set" false
    return if isSetter then h.withAccessor .set else h

/-- The head of an asynchronous member, behind `async`. -/
def asyncHead (h : Head) : Parser Head := do
  return { h with modifiers := ⟨true, ← asyncStar, none⟩ }

/-- The kind of a method that is no constructor. -/
def Modifiers.methodKind (m : Modifiers) : MethodKind :=
  match m.accessor with
  | some a => a.methodKind
  | none => .method

variable (g : Grammar)

/-- The key of a member, read now unless a modifier's word turned out to be it. -/
def memberKey (h : Head) : Parser PropertyKey :=
  match h.key with
  | some key => return key
  | none => g.propertyKey

/-- A method from its parameters on. -/
def methodElement (h : Head) (key : PropertyKey) (kind : MethodKind) : Parser Node := do
  let value ← within ({ · with inPrivateMethod := key.node.isPrivateName })
    (g.method h.modifiers.isAsync h.modifiers.isGenerator)
  checkAccessor h.modifiers.accessor value
  return ⟨.method key.node value kind h.isStatic key.computed, h.pos⟩

/-- A field from behind its key on. -/
def fieldElement (h : Head) (key : PropertyKey) : Parser Node := do
  let value ← within ({ · with inStaticField := h.isStatic }) g.initializer?
  semicolon
  return ⟨.field key.node value h.isStatic key.computed, h.pos⟩

/-- The modifiers of a member behind `static`. -/
def plainModifiers (h : Head) : Parser Head := do
  if ← accept .star then return { h with modifiers := ⟨false, true, none⟩ }
  else if 8 ≤ (← context).options.edition.number then
    let (isAsync, h) ← tryModifier h "async" true
    if isAsync then asyncHead h else accessorWord h
  else accessorWord h

/-- The kind of a method by its name: a constructor has no modifiers, and a static method is not
named `prototype`. -/
def methodKindFor (h : Head) (key : PropertyKey) : Parser MethodKind := do
  if !h.isStatic && key.name? == some (.ofString "constructor") then
    if h.modifiers.accessor.isSome then reject .accessorConstructor key.node.pos
    else if h.modifiers.isGenerator then reject .generatorConstructor key.node.pos
    else if h.modifiers.isAsync then reject .asyncConstructor key.node.pos
    else return .constructor
  else if h.isStatic && key.name? == some (.ofString "prototype") then
    reject .staticPrototype key.node.pos
  else return h.modifiers.methodKind

/-- A member that is a method with a key of the plain dialect. -/
def plainElement : Parser Node := do
  let (isStatic, h) ← tryModifier (.start (← peek)) "static" false
  let h ← plainModifiers { h with isStatic }
  let key ← g.memberKey h
  let kind ← methodKindFor h key
  g.methodElement h key kind

end JsClass.Grammar
