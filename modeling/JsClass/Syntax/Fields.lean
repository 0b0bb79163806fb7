import JsClass.Syntax.Node

/-!
The named fields of each kind of node, in their written order. Children, listings and traversals
all follow this order.
-/
namespace JsClass

/-- The content of a field. -/
inductive Field (α : Type) where
  | node (child : α)
  | optional (child : Option α)
  | list (children : List α)
  /-- A list in which elements may be missing. -/
  | sparse (children : List (Option α))
  | text (t : Text)
  | flag (b : Bool)
  | numeral (n : Numeral)

namespace Field

variable {α : Type}

def children : Field α → List α
  | .node child => [child]
  | .optional child => child.toList
  | .list children => children
  | .sparse children => children.filterMap id
  | .text _ | .flag _ | .numeral _ => []

/-- The text of a single token. -/
def ofKind (k : Kind) : Field α := .text k.text

/-- A field of fixed wording. -/
def word (s : String) : Field α := .text (.ofString s)

end Field

def VarKind.text : VarKind → String
  | .var => "var"
  | .let => "let"
  | .const => "const"

def MethodKind.text : MethodKind → String
  | .method => "method"
  | .constructor => "constructor"
  | .get => "get"
  | .set => "set"

def PropertyKind.text : PropertyKind → String
  | .init => "init"
  | .get => "get"
  | .set => "set"

def SourceType.text : SourceType → String
  | .script => "script"
  | .module => "module"

namespace Shape

variable {α : Type}

/-- The name of a kind of node. -/
def label : Shape α → String
  | .function .declaration .. => "FunctionDecl"
  | .function .expression .. => "FunctionExpr"
  | .class_ .. => "ClassDecl"
  | .method .. => "MethodDecl"
  | .field .. => "FieldDecl"
  | .param .. => "Param"
  | .declarator .. => "VarDeclarator"
  | .block .. => "Block"
  | .varDecl .. => "VarDeclStmt"
  | .return_ .. => "ReturnStmt"
  | .if_ .. => "IfStmt"
  | .while_ .. => "WhileStmt"
  | .doWhile .. => "DoWhileStmt"
  | .for_ .. => "ForStmt"
  | .forIn .. => "ForInStmt"
  | .break_ => "BreakStmt"
  | .continue_ => "ContinueStmt"
  | .throw_ .. => "ThrowStmt"
  | .try_ .. => "TryCatchStmt"
  | .case_ .. => "SwitchCase"
  | .switch_ .. => "SwitchStmt"
  | .exprStmt .. => "ExprStmt"
  | .empty => "EmptyStmt"
  | .debugger => "DebuggerStmt"
  | .identifier .. => "Identifier"
  | .privateName .. => "PrivateName"
  | .number .. => "NumberLiteral"
  | .string .. => "StringLiteral"
  | .bool .. => "BoolLiteral"
  | .null => "NullLiteral"
  | .this => "ThisExpr"
  | .super => "SuperExpr"
  | .array .. => "ArrayLiteral"
  | .spread .. => "SpreadElement"
  | .property .. => "Property"
  | .object .. => "ObjectLiteral"
  | .arrow .. => "ArrowFunctionExpr"
  | .member .. => "MemberExpr"
  | .call .. => "CallExpr"
  | .new_ .. => "NewExpr"
  | .unary .. | .update .. => "UnaryExpr"
  | .binary .. => "BinaryExpr"
  | .assign .. => "AssignExpr"
  | .ternary .. => "TernaryExpr"
  | .sequence .. => "SequenceExpr"
  | .await .. => "AwaitExpr"
  | .yield .. => "YieldExpr"

/-- The fields of a node, without its position. -/
def fields : Shape α → List (String × Field α)
  | .function _ name params body isAsync isGenerator =>
    [("name", .optional name), ("params", .list params), ("body", .node body),
     ("is_async", .flag isAsync), ("is_generator", .flag isGenerator)]
  | .class_ name superclass members isExpression =>
    [("name", .optional name), ("superclass", .optional superclass), ("members", .list members),
     ("is_expression", .flag isExpression)]
  | .method key value kind isStatic computed =>
    [("key", .node key), ("value", .node value), ("kind", .word kind.text),
     ("static", .flag isStatic), ("computed", .flag computed)]
  | .field key value isStatic computed =>
    [("key", .node key), ("value", .optional value), ("static", .flag isStatic),
     ("computed", .flag computed)]
  | .param name default rest =>
    [("name", .node name), ("default", .optional default), ("rest", .flag rest)]
  | .declarator name init => [("name", .node name), ("init", .optional init)]
  | .block statements => [("statements", .list statements)]
  | .varDecl kind declarators => [("kind", .word kind.text), ("declarations", .list declarators)]
  | .return_ value => [("value", .optional value)]
  | .if_ condition consequent alternate =>
    [("condition", .node condition), ("then_block", .node consequent),
     ("else_block", .optional alternate)]
  | .while_ condition body => [("condition", .node condition), ("body", .node body)]
  | .doWhile body condition => [("body", .node body), ("condition", .node condition)]
  | .for_ init condition step body =>
    [("init", .optional init), ("condition", .optional condition), ("update", .optional step),
     ("body", .node body)]
  | .forIn left right body of =>
    [("left", .node left), ("right", .node right), ("body", .node body), ("of", .flag of)]
  | .break_ | .continue_ | .empty | .debugger | .null | .this | .super => []
  | .throw_ argument => [("expr", .node argument)]
  | .try_ body caught handler finalizer =>
    [("try_block", .node body), ("catch_param", .optional caught),
     ("catch_block", .optional handler), ("finally_block", .optional finalizer)]
  | .case_ test body => [("test", .optional test), ("body", .list body)]
  | .switch_ discriminant cases =>
    [("discriminant", .node discriminant), ("cases", .list cases)]
  | .exprStmt expr => [("expr", .node expr)]
  | .identifier name | .privateName name => [("name", .word name)]
  | .number value raw => [("value", .numeral value), ("raw", .word raw)]
  | .string value => [("value", .text value)]
  | .bool value => [("value", .flag value)]
  | .array elements => [("elements", .sparse elements)]
  | .spread argument | .await argument => [("argument", .node argument)]
  | .property key value kind computed shorthand isMethod =>
    [("key", .node key), ("value", .node value), ("kind", .word kind.text),
     ("computed", .flag computed), ("shorthand", .flag shorthand), ("method", .flag isMethod)]
  | .object properties => [("properties", .list properties)]
  | .arrow params body isExpression =>
    [("params", .list params), ("body", .node body), ("expression", .flag isExpression)]
  | .member obj prop computed =>
    [("obj", .node obj), ("prop", .node prop), ("computed", .flag computed)]
  | .call callee args | .new_ callee args => [("callee", .node callee), ("args", .list args)]
  | .unary op operand =>
    [("op", .ofKind op.kind), ("operand", .node operand), ("prefix", .flag true)]
  | .update op operand before =>
    [("op", .ofKind op.kind), ("operand", .node operand), ("prefix", .flag before)]
  | .binary left op right =>
    [("left", .node left), ("op", .ofKind op.kind), ("right", .node right)]
  | .assign target op value =>
    [("target", .node target), ("op", .ofKind op.kind), ("value", .node value)]
  | .ternary condition consequent alternate =>
    [("condition", .node condition), ("true_expr", .node consequent),
     ("false_expr", .node alternate)]
  | .sequence expressions => [("expressions", .list expressions)]
  | .yield argument delegate => [("argument", .optional argument), ("delegate", .flag delegate)]

/-- The children of a node in the order of its fields. -/
def children (s : Shape α) : List α := s.fields.flatMap (·.2.children)

theorem children_map {β : Type} (f : α → β) (s : Shape α) :
    (s.map f).children = s.children.map f := by
  cases s <;> simp [map, children, fields, Field.children, Field.word, Field.ofKind,
    Option.toList_map, List.filterMap_map, List.map_filterMap]

end Shape

namespace Node

def children (n : Node) : List Node := n.shape.children

/-- The node and all nodes below it: first the node, then child after child. -/
def walk : Node → List Node := recurse fun n s => n :: s.children.flatten

theorem walk_eq (n : Node) : n.walk = n :: n.children.flatMap walk := by
  rw [walk, recurse_eq, Shape.children_map, ← walk, children, List.flatMap_def]

/-- A node's kind and position. -/
def outline (n : Node) : String := s!"{n.shape.label}@{n.pos.line}:{n.pos.col}"

end Node

namespace Program

/-- All nodes of a program, without the program itself. -/
def nodes (p : Program) : List Node := p.body.flatMap Node.walk

/-- Kind and position of everything in walking order, the program first. -/
def outline (p : Program) : List String := "Program" :: p.nodes.map Node.outline

end Program

end JsClass
