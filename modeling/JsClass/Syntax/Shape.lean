import JsClass.Numeral.Basic
import JsClass.Syntax.Operator

/-!
The forms of syntax nodes. A `Shape α` is one node with its children replaced by values of `α`,
so that a property of single nodes can be stated without recursion.
-/
namespace JsClass

inductive VarKind where
  | var | let | const
deriving DecidableEq

inductive MethodKind where
  | method | constructor | get | set
deriving DecidableEq

inductive PropertyKind where
  | init | get | set
deriving DecidableEq

/-- A function may stand as a declaration or be part of an expression. -/
inductive FunctionForm where
  | declaration | expression
deriving DecidableEq

inductive SourceType where
  | script | module
deriving DecidableEq

inductive Shape (α : Type) where
  | function (form : FunctionForm) (name : Option α) (params : List α) (body : α)
      (isAsync isGenerator : Bool)
  | class_ (name superclass : Option α) (members : List α) (isExpression : Bool)
  | method (key value : α) (kind : MethodKind) (isStatic computed : Bool)
  | field (key : α) (value : Option α) (isStatic computed : Bool)
  | param (name : α) (default : Option α) (rest : Bool)
  | declarator (name : α) (init : Option α)
  | block (statements : List α)
  | varDecl (kind : VarKind) (declarators : List α)
  | return_ (value : Option α)
  | if_ (condition consequent : α) (alternate : Option α)
  | while_ (condition body : α)
  | doWhile (body condition : α)
  | for_ (init condition update : Option α) (body : α)
  | forIn (left right body : α) (of : Bool)
  | break_
  | continue_
  | throw_ (argument : α)
  | try_ (block : α) (param handler finalizer : Option α)
  | case_ (test : Option α) (body : List α)
  | switch_ (discriminant : α) (cases : List α)
  | exprStmt (expr : α)
  | empty
  | debugger
  | identifier (name : String)
  | privateName (name : String)
  | number (value : Numeral) (raw : String)
  | string (value : Text)
  | bool (value : Bool)
  | null
  | this
  | super
  | array (elements : List (Option α))
  | spread (argument : α)
  | property (key value : α) (kind : PropertyKind) (computed shorthand method : Bool)
  | object (properties : List α)
  | arrow (params : List α) (body : α) (isExpression : Bool)
  | member (object property : α) (computed : Bool)
  | call (callee : α) (args : List α)
  | new_ (callee : α) (args : List α)
  | unary (op : UnaryOp) (operand : α)
  | update (op : UpdateOp) (operand : α) (before : Bool)
  | binary (left : α) (op : BinaryOp) (right : α)
  | assign (target : α) (op : AssignOp) (value : α)
  | ternary (condition consequent alternate : α)
  | sequence (expressions : List α)
  | await (argument : α)
  | yield (argument : Option α) (delegate : Bool)

namespace Shape

variable {α β : Type}

def map (f : α → β) : Shape α → Shape β
  | .function form name params body isAsync isGenerator =>
    .function form (name.map f) (params.map f) (f body) isAsync isGenerator
  | .class_ name superclass members isExpression =>
    .class_ (name.map f) (superclass.map f) (members.map f) isExpression
  | .method key value kind isStatic computed => .method (f key) (f value) kind isStatic computed
  | .field key value isStatic computed => .field (f key) (value.map f) isStatic computed
  | .param name default rest => .param (f name) (default.map f) rest
  | .declarator name init => .declarator (f name) (init.map f)
  | .block statements => .block (statements.map f)
  | .varDecl kind declarators => .varDecl kind (declarators.map f)
  | .return_ value => .return_ (value.map f)
  | .if_ condition consequent alternate => .if_ (f condition) (f consequent) (alternate.map f)
  | .while_ condition body => .while_ (f condition) (f body)
  | .doWhile body condition => .doWhile (f body) (f condition)
  | .for_ init condition step body =>
    .for_ (init.map f) (condition.map f) (step.map f) (f body)
  | .forIn left right body of => .forIn (f left) (f right) (f body) of
  | .break_ => .break_
  | .continue_ => .continue_
  | .throw_ argument => .throw_ (f argument)
  | .try_ body caught handler finalizer =>
    .try_ (f body) (caught.map f) (handler.map f) (finalizer.map f)
  | .case_ test body => .case_ (test.map f) (body.map f)
  | .switch_ discriminant cases => .switch_ (f discriminant) (cases.map f)
  | .exprStmt expr => .exprStmt (f expr)
  | .empty => .empty
  | .debugger => .debugger
  | .identifier name => .identifier name
  | .privateName name => .privateName name
  | .number value raw => .number value raw
  | .string value => .string value
  | .bool value => .bool value
  | .null => .null
  | .this => .this
  | .super => .super
  | .array elements => .array (elements.map (·.map f))
  | .spread argument => .spread (f argument)
  | .property key value kind computed shorthand isMethod =>
    .property (f key) (f value) kind computed shorthand isMethod
  | .object properties => .object (properties.map f)
  | .arrow params body isExpression => .arrow (params.map f) (f body) isExpression
  | .member obj prop computed => .member (f obj) (f prop) computed
  | .call callee args => .call (f callee) (args.map f)
  | .new_ callee args => .new_ (f callee) (args.map f)
  | .unary op operand => .unary op (f operand)
  | .update op operand before => .update op (f operand) before
  | .binary left op right => .binary (f left) op (f right)
  | .assign target op value => .assign (f target) op (f value)
  | .ternary condition consequent alternate =>
    .ternary (f condition) (f consequent) (f alternate)
  | .sequence expressions => .sequence (expressions.map f)
  | .await argument => .await (f argument)
  | .yield argument delegate => .yield (argument.map f) delegate

end Shape

end JsClass
