import JsClass.Grammar.Expression
import JsClass.Proofs.Syntax.PrivateNames

/-!
What the grammar lets stand where. A tree is formed if every node of it is allowed in its role and
in its context; roles and contexts are handed down from node to child, as the rules of the grammar
hand them down.
-/
namespace JsClass

open Scope

inductive Role where
  /-- A key or a property that is spelled out, so that it may be a private name. -/
  | label
  /-- A member of a class. -/
  | member
  | ordinary
deriving DecidableEq

/-- A node where it stands. -/
structure Part where
  role : Role
  context : Context
  node : Node

namespace Part

abbrev ordinary (c : Context) (n : Node) : Part := ⟨.ordinary, c, n⟩

abbrev member (c : Context) (n : Node) : Part := ⟨.member, c, n⟩

abbrev label (c : Context) (n : Node) : Part := ⟨.label, c, n⟩

/-- A key or a property, which is an expression of its own if it is computed. -/
def key (computed : Bool) (c : Context) (n : Node) : Part :=
  if computed then .ordinary c n else .label c n

end Part

namespace Context

/-- The inside of a class. -/
def classBody (c : Context) : Context := { c with strict := true }

/-- The inside of a method with the given key. -/
def methodOf (key : Node) (c : Context) : Context := { c with inPrivateMethod := key.isPrivateName }

/-- The inside of a field's value. -/
def fieldValue (isStatic : Bool) (c : Context) : Context := { c with inStaticField := isStatic }

end Context

def Node.isSuper (n : Node) : Bool :=
  match n.shape with
  | .super => true
  | _ => false

/-- The edition that brought functions of this kind, of the supported ones. -/
def functionSince (isAsync isGenerator : Bool) : Nat :=
  if isAsync then if isGenerator then 9 else 8 else 6

theorem functionSince_le {isAsync isGenerator : Bool} (e : Edition) :
    functionSince isAsync isGenerator ≤ e.number ↔
      (isAsync → 8 ≤ e.number) ∧ (isAsync → isGenerator → 9 ≤ e.number) := by
  have := e.lower
  cases isAsync <;> cases isGenerator <;> simp [functionSince] <;> omega

theorem functionSince_sync (isGenerator : Bool) (e : Edition) :
    functionSince false isGenerator ≤ e.number := e.lower

namespace Shape

/-- The edition that brought the form of a node, of the supported ones. -/
def since : Shape Node → Nat
  | .function _ _ _ _ isAsync isGenerator => functionSince isAsync isGenerator
  | .field key _ _ _ => if key.isPrivateName then 6 else 8
  | _ => 6

/-- The children of a node where they stand, in the order of reading. -/
def parts (c : Context) : Shape Node → List Part
  | .function _ name params body isAsync isGenerator =>
    name.toList.map (.ordinary c) ++ (params.map (.ordinary (c.function isAsync isGenerator))
      ++ [.ordinary (c.function isAsync isGenerator) body])
  | .class_ name superclass members _ =>
    name.toList.map (.ordinary c.classBody) ++ (superclass.toList.map (.ordinary c.classBody)
      ++ members.map (.member c.classBody))
  | .method key value _ _ computed => [.key computed c key, .ordinary (c.methodOf key) value]
  | .field key value isStatic computed =>
    .key computed c key :: value.toList.map (.ordinary (c.fieldValue isStatic))
  | .property key value _ computed _ _ => [.key computed c key, .ordinary c value]
  | .member obj prop computed => [.ordinary c obj, .key computed c prop]
  | .arrow params body _ => params.map (.ordinary c) ++ [.ordinary c.arrow body]
  | .block ns | .varDecl _ ns | .object ns | .sequence ns => ns.map (.ordinary c)
  | .case_ test body => test.toList.map (.ordinary c) ++ body.map (.ordinary c)
  | .switch_ n ns | .call n ns | .new_ n ns => .ordinary c n :: ns.map (.ordinary c)
  | .array elements => (elements.filterMap id).map (.ordinary c)
  | s => s.children.map (.ordinary c)

/-- What may be spelled out as a key or as a property. -/
def IsLabel (c : Context) : Shape Node → Prop
  | .identifier _ | .number .. | .string _ => True
  | .privateName word => c.dialect = .withPrivate ∧ word ≠ ""
  | _ => False

/-- Whether a key spells out a word, computed keys apart. -/
def spells (computed : Bool) (key : Node) (word : String) : Prop :=
  computed = false ∧ key.keyName? = some (.ofString word)

/-- The rules for a method of a class. -/
structure MethodRules (c : Context) (key value : Node) (kind : MethodKind)
    (isStatic computed : Bool) : Prop where
  function : ∃ params body isAsync isGenerator,
    value.shape = .function .expression none params body isAsync isGenerator ∧
      (kind ≠ .method → isAsync = false ∧ isGenerator = false)
  constructor_iff : kind = .constructor ↔ isStatic = false ∧ spells computed key "constructor"
  prototype : isStatic → ¬ spells computed key "prototype"
  staticConstructor : c.dialect = .withPrivate → isStatic → spells computed key "constructor" →
    kind = .get ∨ kind = .set
  privateConstructor : isStatic → ¬ ∃ p, key.privateName? = some p ∧ p.1 = "constructor"

/-- The rules for a field of a class. -/
structure FieldRules (c : Context) (key : Node) (isStatic computed : Bool) : Prop where
  dialect : c.dialect = .withPrivate
  isStatic_or : isStatic ∨ key.isPrivateName
  names : isStatic → ¬ spells computed key "prototype" ∧ ¬ spells computed key "constructor"
  privateNames : isStatic →
    ¬ ∃ p, key.privateName? = some p ∧ (p.1 = "constructor" ∨ p.1 = "prototype")
  edition : key.isPrivateName ∨ 8 ≤ c.options.edition.number

/-- What may be a member of a class. -/
def IsMember (c : Context) : Shape Node → Prop
  | .method key value kind isStatic computed => MethodRules c key value kind isStatic computed
  | .field key _ isStatic computed => FieldRules c key isStatic computed
  | _ => False

/-- What may stand everywhere else. -/
def IsOrdinary (c : Context) : Shape Node → Prop
  | .privateName _ | .method .. | .field .. => False
  | .function _ _ _ _ isAsync isGenerator =>
    functionSince isAsync isGenerator ≤ c.options.edition.number
  | .class_ _ _ members _ => members.countP Node.isConstructor ≤ 1
  | .property key .. => key.isPrivateName = false
  | .identifier name => c.inStaticField → name ≠ "arguments"
  | .super => c.inStaticField = false
  | .call callee _ | .new_ callee _ => callee.isSuper → c.inPrivateMethod = false
  | .unary .delete operand => operand.isPrivateAccess = false
  | .await _ => c.inAsync
  | .yield .. => c.inGenerator
  | _ => True

end Shape

/-- Whether a node may have its role, whatever its children are made of. -/
def Part.Allowed (p : Part) : Prop :=
  match p.role with
  | .label => p.node.shape.IsLabel p.context
  | .member => p.node.shape.IsMember p.context
  | .ordinary => p.node.shape.IsOrdinary p.context

/-- Every node is allowed where it stands. -/
inductive Part.Formed : Part → Prop where
  | mk {p : Part} (allowed : p.Allowed)
      (parts : ∀ q ∈ p.node.shape.parts p.context, q.Formed) : p.Formed

namespace Part

@[simp] theorem node_key (computed : Bool) (c : Context) (n : Node) :
    (key computed c n).node = n := by
  cases computed <;> rfl

/-- The parts of a node are its children. -/
theorem map_node_parts (c : Context) (s : Shape Node) : (s.parts c).map node = s.children := by
  cases s <;> simp [Shape.parts, Shape.children, Shape.fields, Field.children, Field.word,
    Field.ofKind, Function.comp_def]

theorem Formed.allowed {p : Part} (h : p.Formed) : p.Allowed := by
  cases h with
  | mk allowed _ => exact allowed

theorem Formed.parts {p q : Part} (h : p.Formed) (hq : q ∈ p.node.shape.parts p.context) :
    q.Formed := by
  cases h with
  | mk _ parts => exact parts q hq

theorem Formed.isPrivateName_eq_false {c : Context} {n : Node} (h : (ordinary c n).Formed) :
    n.isPrivateName = false := by
  have := h.allowed
  cases hs : n.shape <;> simp_all [Node.isPrivateName, Allowed, Shape.IsOrdinary]

@[simp] theorem context_key (computed : Bool) (c : Context) (n : Node) :
    (key computed c n).context = c := by
  cases computed <;> rfl

/-- The dialect and the options are the same everywhere in a tree. -/
theorem settings_of_mem_parts (c : Context) (s : Shape Node) :
    ∀ q ∈ s.parts c, q.context.dialect = c.dialect ∧ q.context.options = c.options := by
  cases s <;> simp [Shape.parts, or_imp, forall_and, Context.function, Context.classBody,
    Context.methodOf, Context.fieldValue, Context.arrow]

end Part

end JsClass
