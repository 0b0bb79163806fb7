import JsClass.Token.Basic

/-! Operators of expressions. Each is written as one token. -/
namespace JsClass

/-- Operators before their operand that leave it unchanged. -/
inductive UnaryOp where
  | delete | typeof | void | not | complement | plus | minus
deriving DecidableEq

namespace UnaryOp

def all : List UnaryOp := [.delete, .typeof, .void, .not, .complement, .plus, .minus]

def kind : UnaryOp → Kind
  | .delete => .keyword .delete_
  | .typeof => .keyword .typeof_
  | .void => .keyword .void_
  | .not => .punct .bang
  | .complement => .punct .tilde
  | .plus => .punct .plus
  | .minus => .punct .minus

def ofKind? (k : Kind) : Option UnaryOp := all.find? (·.kind == k)

end UnaryOp

/-- Operators before or behind a target that step it up or down. -/
inductive UpdateOp where
  | increment | decrement
deriving DecidableEq

namespace UpdateOp

def kind : UpdateOp → Kind
  | .increment => .punct .plusPlus
  | .decrement => .punct .minusMinus

def ofKind? (k : Kind) : Option UpdateOp := [.increment, .decrement].find? (·.kind == k)

end UpdateOp

inductive BinaryOp where
  | nullish | or | and | bitOr | bitXor | bitAnd
  | eq | ne | strictEq | strictNe
  | lt | gt | le | ge | instanceof | in_
  | shiftLeft | shiftRight | shiftRightZero
  | add | sub | mul | div | mod | pow
deriving DecidableEq

namespace BinaryOp

def all : List BinaryOp :=
  [.nullish, .or, .and, .bitOr, .bitXor, .bitAnd, .eq, .ne, .strictEq, .strictNe, .lt, .gt, .le,
   .ge, .instanceof, .in_, .shiftLeft, .shiftRight, .shiftRightZero, .add, .sub, .mul, .div, .mod,
   .pow]

def kind : BinaryOp → Kind
  | .nullish => .punct .questionQuestion
  | .or => .punct .pipePipe
  | .and => .punct .ampAmp
  | .bitOr => .punct .pipe
  | .bitXor => .punct .caret
  | .bitAnd => .punct .amp
  | .eq => .punct .eqEq
  | .ne => .punct .bangEq
  | .strictEq => .punct .eqEqEq
  | .strictNe => .punct .bangEqEq
  | .lt => .punct .lt
  | .gt => .punct .gt
  | .le => .punct .ltEq
  | .ge => .punct .gtEq
  | .instanceof => .keyword .instanceof_
  | .in_ => .keyword .in_
  | .shiftLeft => .punct .ltLt
  | .shiftRight => .punct .gtGt
  | .shiftRightZero => .punct .gtGtGt
  | .add => .punct .plus
  | .sub => .punct .minus
  | .mul => .punct .star
  | .div => .punct .slash
  | .mod => .punct .percent
  | .pow => .punct .starStar

def ofKind? (k : Kind) : Option BinaryOp := all.find? (·.kind == k)

/-- How tightly the operator binds; the loosest operators have precedence one. -/
def precedence : BinaryOp → Nat
  | .nullish | .or => 1
  | .and => 2
  | .bitOr => 3
  | .bitXor => 4
  | .bitAnd => 5
  | .eq | .ne | .strictEq | .strictNe => 6
  | .lt | .gt | .le | .ge | .instanceof | .in_ => 7
  | .shiftLeft | .shiftRight | .shiftRightZero => 8
  | .add | .sub => 9
  | .mul | .div | .mod => 10
  | .pow => 11

/-- Operators to the right of this one belong to its right operand if they bind more tightly than
this bound. Powers associate to the right, all else to the left. -/
def rightBound : BinaryOp → Nat
  | .pow => precedence .pow - 1
  | op => op.precedence

end BinaryOp

inductive AssignOp where
  | plain | add | sub | mul | pow | div | mod | bitAnd | bitOr | bitXor
  | shiftLeft | shiftRight | shiftRightZero | and | or | nullish
deriving DecidableEq

namespace AssignOp

def all : List AssignOp :=
  [.plain, .add, .sub, .mul, .pow, .div, .mod, .bitAnd, .bitOr, .bitXor, .shiftLeft, .shiftRight,
   .shiftRightZero, .and, .or, .nullish]

def kind : AssignOp → Kind
  | .plain => .punct .eq
  | .add => .punct .plusEq
  | .sub => .punct .minusEq
  | .mul => .punct .starEq
  | .pow => .punct .starStarEq
  | .div => .punct .slashEq
  | .mod => .punct .percentEq
  | .bitAnd => .punct .ampEq
  | .bitOr => .punct .pipeEq
  | .bitXor => .punct .caretEq
  | .shiftLeft => .punct .ltLtEq
  | .shiftRight => .punct .gtGtEq
  | .shiftRightZero => .punct .gtGtGtEq
  | .and => .punct .ampAmpEq
  | .or => .punct .pipePipeEq
  | .nullish => .punct .questionQuestionEq

def ofKind? (k : Kind) : Option AssignOp := all.find? (·.kind == k)

end AssignOp

end JsClass
