import JsClass.Grammar.Class

/-!
Expressions, from atoms outward: subscripts, unary and binary operators, the conditional and
assignment.
-/
namespace JsClass

/-- Whether a value can be assigned to the node. -/
def Node.isTarget (n : Node) : Bool :=
  match n.shape with
  | .identifier _ | .member .. => true
  | _ => false

def Node.isArrow (n : Node) : Bool :=
  match n.shape with
  | .arrow .. => true
  | _ => false

/-- Whether the node is an access to a private member. -/
def Node.isPrivateAccess (n : Node) : Bool :=
  match n.shape with
  | .member _ property _ => property.isPrivateName
  | _ => false

namespace Grammar

open JsClass.Parser

def checkTarget (n : Node) : Parser Unit :=
  if n.isTarget then return () else reject .assignToRvalue n.pos

variable (g : Grammar)

/-- An argument or an element, which may be spread. -/
def spreadable : Parser Node := do
  let t ← peek
  if ← accept .ellipsis then return t.node (.spread (← g.assignment)) else g.assignment

/-- The arguments of a call behind the opening parenthesis. -/
def arguments : Parser (List Node) := separated g.turns .rparen g.spreadable

/-- An element of an array; nothing before a comma is a hole. -/
def element : Parser (Option Node) := do
  if ← check .comma then return none else return some (← g.spreadable)

def array : Parser Node := do
  let t ← expect .lbracket
  let elements ← separated g.turns .rbracket g.element
  return t.node (.array elements)

/-- The name behind a point. -/
def dotProperty : Parser Node := do
  let t ← peek
  if (← context).dialect == .withPrivate && t.kind.isPrivateName then
    let name ← privateName
    onScope (·.use name.name name.pos)
    return ⟨.privateName name.name, name.pos⟩
  else return (← propertyWord).node

/-- One access or call behind an expression. -/
def subscript (calls : Bool) (base : Node) : Parser (Option Node) := do
  match (← peek).kind with
  | .punct .dot =>
    let _ ← advance
    return some (base.wrap (.member base (← dotProperty) false))
  | .punct .lbracket =>
    let _ ← advance
    let property ← g.expression
    let _ ← expect .rbracket
    return some (base.wrap (.member base property true))
  | .punct .lparen =>
    if calls then
      let _ ← advance
      return some (base.wrap (.call base (← g.arguments)))
    else return none
  | _ => return none

def subscripts (calls : Bool) (base : Node) : Parser Node :=
  extend (g.subscript calls) g.turns base

def newExpression : Parser Node := do
  let t ← expectKeyword .new_
  let next ← peek
  if next.kind == .punct .dot then reject .newTarget next.pos
  else
    let callee ← g.subscripts false (← g.atom)
    if ← accept .lparen then return t.node (.new_ callee (← g.arguments))
    else return t.node (.new_ callee [])

/-- The keyword `super`, which must be accessed or called at once. -/
def superExpression : Parser Node := do
  let t ← expectKeyword .super_
  let c ← context
  let next ← peek
  match next.kind with
  | .punct .lparen =>
    if c.inStaticField then reject .superInFieldValue t.pos
    else if c.inPrivateMethod then reject .directSuperCall t.pos
    else return t.node .super
  | .punct .dot | .punct .lbracket =>
    if c.inStaticField then reject .superInFieldValue t.pos else return t.node .super
  | _ => unexpected next

/-- A name, which may also start an asynchronous function or be the parameter of an arrow. -/
def nameExpression : Parser Node := do
  let t ← peek
  if ← isAsyncFunction then
    let _ ← advance
    g.function .expression true
  else
    let name ← ident
    let next ← peek
    if next.kind == .punct .fatArrow && !next.newlineBefore then g.arrow [name.param] t
    else return name.node

/-- A parenthesis opens the parameters of an arrow or an expression of its own. -/
def parenExpression : Parser Node := do
  let t ← peek
  if ← isArrowParams then
    let params ← g.params
    g.arrow params t
  else g.parenthesized

/-- The smallest expressions. -/
def atomRule : Parser Node := do
  let t ← peek
  match t.kind with
  | .keyword .super_ => superExpression
  | .keyword .this_ =>
    let _ ← advance
    return t.node .this
  | .name _ => g.nameExpression
  | .number raw =>
    let _ ← advance
    numberLiteral t raw
  | .string value =>
    let _ ← advance
    return t.node (.string value)
  | .keyword .true_ =>
    let _ ← advance
    return t.node (.bool true)
  | .keyword .false_ =>
    let _ ← advance
    return t.node (.bool false)
  | .keyword .null_ =>
    let _ ← advance
    return t.node .null
  | .punct .lparen => g.parenExpression
  | .punct .lbracket => g.array
  | .punct .lbrace => g.object
  | .keyword .function_ => g.function .expression false
  | .keyword .class_ => g.class_ true
  | .keyword .new_ => g.newExpression
  | _ => unexpected t

/-- An atom with its accesses and calls; an arrow has taken its own. -/
def subscriptedRule : Parser Node := do
  let atom ← g.atomRule
  if atom.isArrow then return atom else g.subscripts true atom

/-- An update behind its operand, which no line break may separate. -/
def postfixUpdate (operand : Node) : Parser (Option Node) := do
  let t ← peek
  match UpdateOp.ofKind? t.kind with
  | some op =>
    if t.newlineBefore then return none
    else
      checkTarget operand
      let _ ← advance
      return some (operand.wrap (.update op operand false))
  | none => return none

/-- Refuses to delete a variable in strict code, or a private member anywhere. -/
def checkDelete (t : Token) (operand : Node) : Parser Unit := do
  if (← context).strict && operand.isIdentifier then reject .deleteOfLocal t.pos
  else if operand.isPrivateAccess then reject .deleteOfPrivate t.pos
  else return ()

/-- A unary operator behind its token. -/
def unaryOperator (t : Token) (op : UnaryOp) : Parser Node := do
  let operand ← g.unary
  if op == .delete then checkDelete t operand
  return t.node (.unary op operand)

/-- An update before its operand, behind its token. -/
def prefixUpdate (t : Token) (op : UpdateOp) : Parser Node := do
  let operand ← g.unary
  checkTarget operand
  return t.node (.update op operand true)

def unaryRule : Parser Node := do
  let t ← peek
  if (← context).inAsync && t.kind == .name "await" then
    let _ ← advance
    return t.node (.await (← g.unary))
  else match UnaryOp.ofKind? t.kind, UpdateOp.ofKind? t.kind with
    | some op, _ =>
      let _ ← advance
      g.unaryOperator t op
    | none, some op =>
      let _ ← advance
      g.prefixUpdate t op
    | none, none => extend postfixUpdate g.turns (← g.subscriptedRule)

/-- Binary operators behind a left operand, as long as they bind more tightly than `bound`. -/
def climb (unary : Parser Node) : Nat → Nat → Node → Parser Node
  | 0, _, _ => fail .exhausted
  | turns + 1, bound, left => do
    match BinaryOp.ofKind? (← peek).kind with
    | none => return left
    | some op =>
      if op.precedence ≤ bound then return left
      else
        let _ ← advance
        let right ← climb unary turns op.rightBound (← unary)
        climb unary turns bound (left.wrap (.binary left op right))

def binaryRule : Parser Node := do climb g.unaryRule g.turns 0 (← g.unaryRule)

def conditionalRule : Parser Node := do
  let condition ← g.binaryRule
  if ← accept .question then
    let consequent ← g.assignment
    let _ ← expect .colon
    let alternate ← g.assignment
    return condition.wrap (.ternary condition consequent alternate)
  else return condition

/-- Tokens behind `yield` that leave it without an argument. -/
def endsYield (k : Kind) : Bool :=
  k == .punct .semicolon || k == .punct .rparen || k == .punct .rbracket || k == .punct .rbrace
    || k == .punct .comma || k == .punct .colon || k == .eof

def yieldExpression : Parser Node := do
  let t ← advance
  let next ← peek
  if next.newlineBefore || endsYield next.kind then return t.node (.yield none false)
  else
    let delegate ← accept .star
    let argument ← g.assignment
    return t.node (.yield (some argument) delegate)

def assignmentRule : Parser Node := do
  let isYield ← checkWord "yield"
  if (← context).inGenerator && isYield then g.yieldExpression
  else
    let target ← g.conditionalRule
    match AssignOp.ofKind? (← peek).kind with
    | none => return target
    | some op =>
      checkTarget target
      let _ ← advance
      return target.wrap (.assign target op (← g.assignment))

def expressionRule : Parser Node := commaExpression g.turns g.assignmentRule

end Grammar

end JsClass
