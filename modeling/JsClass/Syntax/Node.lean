import JsClass.Source.Place
import JsClass.Syntax.Shape

/-!
Syntax nodes: a shape whose children are nodes, and the position of the node. All recursion over
nodes goes through `Node.recurse`, which first treats the children and then the node.
-/
namespace JsClass

inductive Node where
  | mk (shape : Shape Node) (pos : Position)

namespace Node

variable {β : Type}

def shape : Node → Shape Node
  | .mk s _ => s

def pos : Node → Position
  | .mk _ p => p

mutual

/-- The value of a node, from the node and the values of its children. -/
def recurse (f : Node → Shape β → β) : Node → β
  | .mk s p => f (.mk s p) (recurseShape f s)

def recurseShape (f : Node → Shape β → β) : Shape Node → Shape β
  | .function form name params body isAsync isGenerator =>
    .function form (recurseOption f name) (recurseList f params) (recurse f body) isAsync
      isGenerator
  | .class_ name superclass members isExpression =>
    .class_ (recurseOption f name) (recurseOption f superclass) (recurseList f members)
      isExpression
  | .method key value kind isStatic computed =>
    .method (recurse f key) (recurse f value) kind isStatic computed
  | .field key value isStatic computed =>
    .field (recurse f key) (recurseOption f value) isStatic computed
  | .param name default rest => .param (recurse f name) (recurseOption f default) rest
  | .declarator name init => .declarator (recurse f name) (recurseOption f init)
  | .block statements => .block (recurseList f statements)
  | .varDecl kind declarators => .varDecl kind (recurseList f declarators)
  | .return_ value => .return_ (recurseOption f value)
  | .if_ condition consequent alternate =>
    .if_ (recurse f condition) (recurse f consequent) (recurseOption f alternate)
  | .while_ condition body => .while_ (recurse f condition) (recurse f body)
  | .doWhile body condition => .doWhile (recurse f body) (recurse f condition)
  | .for_ init condition update body =>
    .for_ (recurseOption f init) (recurseOption f condition) (recurseOption f update)
      (recurse f body)
  | .forIn left right body of => .forIn (recurse f left) (recurse f right) (recurse f body) of
  | .break_ => .break_
  | .continue_ => .continue_
  | .throw_ argument => .throw_ (recurse f argument)
  | .try_ block param handler finalizer =>
    .try_ (recurse f block) (recurseOption f param) (recurseOption f handler)
      (recurseOption f finalizer)
  | .case_ test body => .case_ (recurseOption f test) (recurseList f body)
  | .switch_ discriminant cases => .switch_ (recurse f discriminant) (recurseList f cases)
  | .exprStmt expr => .exprStmt (recurse f expr)
  | .empty => .empty
  | .debugger => .debugger
  | .identifier name => .identifier name
  | .privateName name => .privateName name
  | .number value raw => .number value raw
  | .string value => .string value
  | .bool value => .bool value
  | .null => .null
  | .this => .this
  | .super => .super
  | .array elements => .array (recurseOptions f elements)
  | .spread argument => .spread (recurse f argument)
  | .property key value kind computed shorthand method =>
    .property (recurse f key) (recurse f value) kind computed shorthand method
  | .object properties => .object (recurseList f properties)
  | .arrow params body isExpression => .arrow (recurseList f params) (recurse f body) isExpression
  | .member object property computed => .member (recurse f object) (recurse f property) computed
  | .call callee args => .call (recurse f callee) (recurseList f args)
  | .new_ callee args => .new_ (recurse f callee) (recurseList f args)
  | .unary op operand => .unary op (recurse f operand)
  | .update op operand before => .update op (recurse f operand) before
  | .binary left op right => .binary (recurse f left) op (recurse f right)
  | .assign target op value => .assign (recurse f target) op (recurse f value)
  | .ternary condition consequent alternate =>
    .ternary (recurse f condition) (recurse f consequent) (recurse f alternate)
  | .sequence expressions => .sequence (recurseList f expressions)
  | .await argument => .await (recurse f argument)
  | .yield argument delegate => .yield (recurseOption f argument) delegate

def recurseList (f : Node → Shape β → β) : List Node → List β
  | [] => []
  | n :: ns => recurse f n :: recurseList f ns

def recurseOption (f : Node → Shape β → β) : Option Node → Option β
  | none => none
  | some n => some (recurse f n)

def recurseOptions (f : Node → Shape β → β) : List (Option Node) → List (Option β)
  | [] => []
  | n :: ns => recurseOption f n :: recurseOptions f ns

end

variable {f : Node → Shape β → β}

theorem recurseOption_eq_map (n : Option Node) : recurseOption f n = n.map (recurse f) := by
  cases n <;> rfl

theorem recurseList_eq_map (ns : List Node) : recurseList f ns = ns.map (recurse f) := by
  induction ns with
  | nil => rfl
  | cons n ns ih => simp [recurseList, ih]

theorem recurseOptions_eq_map (ns : List (Option Node)) :
    recurseOptions f ns = ns.map (·.map (recurse f)) := by
  induction ns with
  | nil => rfl
  | cons n ns ih => simp [recurseOptions, ih, recurseOption_eq_map]

theorem recurseShape_eq_map (s : Shape Node) : recurseShape f s = s.map (recurse f) := by
  cases s <;> simp [recurseShape, Shape.map, recurseOption_eq_map, recurseList_eq_map,
    recurseOptions_eq_map]

theorem recurse_eq (n : Node) : recurse f n = f n (n.shape.map (recurse f)) := by
  obtain ⟨s, p⟩ := n
  simp [recurse, shape, recurseShape_eq_map]

end Node

/-- A source text as a tree. -/
structure Program where
  body : List Node
  sourceType : SourceType

end JsClass
