import JsClass.Options
import JsClass.Scope.Basic

/-!
Parsers over the tokens that are still to come. What a parser must know (the options, the dialect
and the kind of code it stands in) is read-only, so it is restored by construction when an inner
parser ends. The state keeps its changes also after a fault, since problems recorded before it
are still reported.
-/
namespace JsClass

/-- What is known at a place of the program. -/
structure Context where
  dialect : Dialect
  options : Options
  /-- The end of input, seen behind the last token. -/
  finish : Token
  strict : Bool
  inFunction : Bool
  inAsync : Bool
  inGenerator : Bool
  /-- Inside the value of a static field, outside of inner functions. -/
  inStaticField : Bool
  inPrivateMethod : Bool

structure State where
  pending : List Token
  /-- The problems recorded so far, oldest first. -/
  reported : List Diagnostic
  scope : Scope

/-- Why parsing ends early. -/
inductive Fault where
  | rejected (d : Diagnostic)
  /-- A numeric literal whose text denotes no number. -/
  | unreadableNumber
  /-- A private name is declared outside of every class. -/
  | noClass
  /-- More nesting or repetition than the given bound. -/
  | exhausted
deriving DecidableEq

inductive Reply (α : Type) where
  | ok (value : α) (state : State)
  | error (fault : Fault) (state : State)

def Parser (α : Type) := Context → State → Reply α

namespace Parser

variable {α β : Type}

instance : Monad Parser where
  pure a := fun _ s => .ok a s
  bind p f := fun c s =>
    match p c s with
    | .ok a s => f a c s
    | .error e s => .error e s

@[simp] theorem pure_apply (a : α) (c : Context) (s : State) :
    (pure a : Parser α) c s = .ok a s := rfl

theorem bind_apply (p : Parser α) (f : α → Parser β) (c : Context) (s : State) :
    (p >>= f) c s = match p c s with
      | .ok a s => f a c s
      | .error e s => .error e s := rfl

theorem bind_eq_ok {p : Parser α} {f : α → Parser β} {c : Context} {s t : State} {b : β} :
    (p >>= f) c s = .ok b t ↔ ∃ a u, p c s = .ok a u ∧ f a c u = .ok b t := by
  rw [bind_apply]
  cases h : p c s with
  | ok a u =>
    constructor
    · intro hf
      exact ⟨a, u, rfl, hf⟩
    · rintro ⟨a', u', ha, hf⟩
      cases ha
      exact hf
  | error e u => simp

def context : Parser Context := fun c s => .ok c s

/-- Runs a parser in another context. -/
def within (change : Context → Context) (p : Parser α) : Parser α := fun c s => p (change c) s

def fail (fault : Fault) : Parser α := fun _ s => .error fault s

/-- Ends parsing with a problem. -/
def reject (cause : Cause) (pos : Position) : Parser α := fail (.rejected ⟨cause, pos⟩)

/-- Records a problem and goes on. -/
def report (cause : Cause) (pos : Position) : Parser Unit :=
  fun _ s => .ok () { s with reported := s.reported ++ [⟨cause, pos⟩] }

/-- Applies an operation to the private names. -/
def onScope (op : Scope → Scope.Attempt) : Parser Unit := fun _ s =>
  match op s.scope with
  | (.ok (), scope) => .ok () { s with scope }
  | (.error (.diagnostic d), scope) => .error (.rejected d) { s with scope }
  | (.error .noClass, scope) => .error .noClass { s with scope }

/-- Runs a parser in a class body of its own, which is left whether it succeeds or not. -/
def inClassBody (p : Parser α) : Parser α := fun c s =>
  match p c { s with scope := s.scope.enter } with
  | .ok a s => (do onScope Scope.exit; pure a : Parser α) c s
  | .error e s => .error e { s with scope := s.scope.abandon.2 }

/-- The next token; behind the last one the end of input is seen again and again. -/
def peek : Parser Token := fun c s => .ok (s.pending.headD c.finish) s

/-- The token `n` places behind the next one. -/
def peekAt (n : Nat) : Parser Token := fun c s => .ok ((s.pending.drop n).headD c.finish) s

def advance : Parser Token := fun c s =>
  match s.pending with
  | [] => .ok c.finish s
  | t :: rest => .ok t { s with pending := rest }

/-- All tokens to come. -/
def pending : Parser (List Token) := fun _ s => .ok s.pending s

/-- Goes back to tokens that were seen before. -/
def restore (tokens : List Token) : Parser Unit := fun _ s => .ok () { s with pending := tokens }

def atEnd : Parser Bool := do return (← peek).kind == .eof

def checkKind (k : Kind) : Parser Bool := do return (← peek).kind == k

/-- Whether the punctuator comes next. -/
def check (p : Punct) : Parser Bool := checkKind (.punct p)

/-- Takes a token of the given kind if it comes next. -/
def acceptKind (k : Kind) : Parser Bool := do
  if ← checkKind k then
    let _ ← advance
    return true
  else return false

def accept (p : Punct) : Parser Bool := acceptKind (.punct p)

def acceptKeyword (k : Keyword) : Parser Bool := acceptKind (.keyword k)

/-- Ends parsing at a token that cannot stand there. -/
def unexpected (t : Token) : Parser α :=
  match t.kind with
  | .eof => reject .unexpectedEnd t.pos
  | .privateName word => reject (.unexpectedToken (.ofString ("#" ++ word))) t.pos
  | kind => reject (.unexpectedToken kind.text) t.pos

def unexpectedNext : Parser α := do unexpected (← peek)

def expectKind (k : Kind) : Parser Token := do
  let t ← peek
  if t.kind == k then advance else unexpected t

def expect (p : Punct) : Parser Token := expectKind (.punct p)

def expectKeyword (k : Keyword) : Parser Token := expectKind (.keyword k)

/-- Whether a plain name with this word comes next. -/
def checkWord (word : String) : Parser Bool := checkKind (.name word)

/-- Whether a statement may end here without a semicolon. -/
def canInsertSemicolon : Parser Bool := do
  let t ← peek
  return t.kind == .eof || t.kind == .punct .rbrace || t.newlineBefore

def semicolon : Parser Unit := do
  if ← accept .semicolon then return ()
  else if ← canInsertSemicolon then return ()
  else unexpectedNext

end Parser

/-- A node with the position of a token. -/
def Token.node (t : Token) (s : Shape Node) : Node := ⟨s, t.pos⟩

/-- A node that starts where another one does. -/
def Node.wrap (n : Node) (s : Shape Node) : Node := ⟨s, n.pos⟩

end JsClass
