import JsClass.Proofs.Grammar.Formed

/-! The kinds of functions and the members of classes as a finished tree has them. -/
namespace JsClass

namespace Node

def isAsync (n : Node) : Bool :=
  match n.shape with
  | .function _ _ _ _ isAsync _ => isAsync
  | _ => false

def isGenerator (n : Node) : Bool :=
  match n.shape with
  | .function _ _ _ _ _ isGenerator => isGenerator
  | _ => false

/-- The key of a member of a class, and whether it is computed. -/
def memberKey? (m : Node) : Option (Node × Bool) :=
  match m.shape with
  | .method key _ _ _ computed | .field key _ _ computed => some (key, computed)
  | _ => none

/-- The name that the key of a member spells out, as an identifier or as a string. -/
def spelledKey? (m : Node) : Option Text :=
  m.memberKey?.bind fun k => if k.2 then none else k.1.keyName?

/-- The word of a member's private key. -/
def privateKey? (m : Node) : Option String := m.memberKey?.bind fun k => k.1.privateName?.map (·.1)

def isStaticMember (m : Node) : Bool :=
  match m.shape with
  | .method _ _ _ isStatic _ | .field _ _ isStatic _ => isStatic
  | _ => false

def methodKind? (m : Node) : Option MethodKind :=
  match m.shape with
  | .method _ _ kind _ _ => some kind
  | _ => none

def isField (m : Node) : Bool :=
  match m.shape with
  | .field .. => true
  | _ => false

/-- Whether the node is what only a class can have as a member. -/
def isMember (m : Node) : Bool := m.memberKey?.isSome

/-- Whether a method's function is neither asynchronous nor a generator. -/
def isPlainMethod (m : Node) : Bool :=
  match m.shape with
  | .method _ value _ _ _ =>
    match value.shape with
    | .function _ _ _ _ isAsync isGenerator => !isAsync && !isGenerator
    | _ => false
  | _ => false

/-- Whether the node is a static member that is called like the constructor, accessors apart. -/
def isStaticConstructor (m : Node) : Bool :=
  m.isStaticMember && m.spelledKey? == some (.ofString "constructor")
    && m.methodKind? != some .get && m.methodKind? != some .set

/-- What a node spells out: the key of a member, or the property of an access. -/
def labels (n : Node) : List Node :=
  match n.shape with
  | .method key _ _ _ false | .field key _ _ false => [key]
  | .member _ property false => [property]
  | _ => []

end Node

theorem spelledKey?_eq_some {m key : Node} {computed : Bool} {word : String}
    (h : m.memberKey? = some (key, computed)) :
    m.spelledKey? = some (.ofString word) ↔ Shape.spells computed key word := by
  cases computed <;> simp [Node.spelledKey?, h, Shape.spells]

theorem privateKey?_eq {m key : Node} {computed : Bool} (h : m.memberKey? = some (key, computed)) :
    m.privateKey? = key.privateName?.map (·.1) := by
  simp [Node.privateKey?, h]

end JsClass
