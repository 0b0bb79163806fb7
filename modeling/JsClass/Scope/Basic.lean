import JsClass.Assoc
import JsClass.Diagnostic

/-!
Private names in nested class bodies. Every open body has a frame with the names it declares and
the names used in it without a declaration so far. A use may come before its declaration, so it
stays open in the frame; when the body ends it moves to the enclosing body, and when the outermost
body ends what is still open is reported.
-/
namespace JsClass

/-- What a private name stands for; a getter and a setter of one name are both together. -/
inductive ElementKind where
  | field | method | get | set | both
  | other (word : String)
deriving DecidableEq

/-- The part of the scope that belongs to one class body. -/
structure Frame where
  /-- The declared names, in order of their first declaration. -/
  bound : Assoc ElementKind
  /-- The open uses, each name with its least position, in order of recording. -/
  unresolved : Assoc Position
deriving DecidableEq

namespace Frame

def empty : Frame := ⟨[], []⟩

def kindOf? (f : Frame) (name : String) : Option ElementKind := f.bound.lookup name

def bind (f : Frame) (name : String) (kind : ElementKind) : Frame :=
  ⟨f.bound.put name kind, f.unresolved.erase name⟩

/-- Records an open use; of several uses the least position is kept. -/
def record (f : Frame) (name : String) (pos : Position) : Frame :=
  match f.unresolved.lookup name with
  | some old => if pos.lt old then { f with unresolved := f.unresolved.put name pos } else f
  | none => { f with unresolved := f.unresolved.put name pos }

/-- Takes over the open uses of a body that ended. -/
def absorb (f inner : Frame) : Frame :=
  inner.unresolved.foldl (fun f use => f.record use.1 use.2) f

/-- The open use with the least position; of several the one recorded first. -/
def firstOpen? (f : Frame) : Option (String × Position) :=
  f.unresolved.foldl step none
where
  step (best : Option (String × Position)) (use : String × Position) :=
    match best with
    | none => some use
    | some least => if use.2.lt least.2 then some use else some least

end Frame

/-- Why an operation on a scope is refused. -/
inductive ScopeError where
  | diagnostic (d : Diagnostic)
  /-- There is no class body to declare in or to leave. -/
  | noClass
deriving DecidableEq

/-- The open class bodies, the innermost first. -/
structure Scope where
  frames : List Frame
deriving DecidableEq

/-- What an operation says, and the scope it leaves behind. -/
abbrev Scope.Attempt := Except ScopeError Unit × Scope

namespace Scope

def empty : Scope := ⟨[]⟩

def depth (s : Scope) : Nat := s.frames.length

def enter (s : Scope) : Scope := ⟨.empty :: s.frames⟩

def isBound (s : Scope) (name : String) : Bool := s.frames.any fun f => (f.kindOf? name).isSome

/-- The kind of a name that is declared again: a getter and a setter go together, and nothing else
does. -/
def joinKinds? (existing kind : ElementKind) : Option ElementKind :=
  match existing, kind with
  | .get, .set | .set, .get => some .both
  | _, _ => none

def declare (s : Scope) (name : String) (kind : ElementKind) (pos : Position) : Attempt :=
  match s.frames with
  | [] => (.error .noClass, s)
  | frame :: outer =>
    match frame.kindOf? name with
    | none => (.ok (), ⟨frame.bind name kind :: outer⟩)
    | some existing =>
      match joinKinds? existing kind with
      | none => (.error (.diagnostic ⟨.duplicatePrivate name, pos⟩), s)
      | some joined => (.ok (), ⟨frame.bind name joined :: outer⟩)

/-- A use outside of every class is an error at once. -/
def use (s : Scope) (name : String) (pos : Position) : Attempt :=
  match s.frames with
  | [] => (.error (.diagnostic ⟨.undeclaredPrivate name, pos⟩), s)
  | frame :: outer =>
    if s.isBound name then (.ok (), s) else (.ok (), ⟨frame.record name pos :: outer⟩)

/-- Ends the innermost class body. -/
def exit (s : Scope) : Attempt :=
  match s.frames with
  | [] => (.error .noClass, s)
  | [frame] =>
    match frame.firstOpen? with
    | none => (.ok (), .empty)
    | some (name, pos) => (.error (.diagnostic ⟨.undeclaredPrivate name, pos⟩), .empty)
  | frame :: next :: outer => (.ok (), ⟨next.absorb frame :: outer⟩)

/-- Drops the innermost class body with its open uses. -/
def abandon (s : Scope) : Attempt :=
  match s.frames with
  | [] => (.error .noClass, s)
  | _ :: outer => (.ok (), ⟨outer⟩)

end Scope

end JsClass
