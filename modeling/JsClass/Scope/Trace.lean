import JsClass.Scope.Basic

/-! Sequences of scope operations, with the scope after each of them. -/
namespace JsClass.Scope

/-- One operation; `body` runs its steps inside a class body of their own. -/
inductive Step where
  | enter
  | exit
  | declare (name : String) (kind : ElementKind) (pos : Position)
  | use (name : String) (pos : Position)
  | isBound (name : String)
  | body (steps : List Step)

/-- What a step says. -/
inductive Answer where
  | ok
  | bound (b : Bool)
  /-- A step inside a body succeeded. -/
  | inBody
  | error (e : ScopeError)

/-- An answer and the scope after it. -/
structure Entry where
  answer : Answer
  scope : Scope

/-- The result of a step: the entries of the steps inside it, its own answer and its scope. -/
structure Outcome where
  inner : List Entry
  answer : Answer
  scope : Scope

def Outcome.ofAttempt (inner : List Entry) : Attempt → Outcome
  | (.ok (), s) => ⟨inner, .ok, s⟩
  | (.error e, s) => ⟨inner, .error e, s⟩

/-- The end of a body: after an error its frame is dropped without a report. -/
def closeBody (inner : List Entry) : Option ScopeError → Scope → Outcome
  | none, s => .ofAttempt inner s.exit
  | some e, s =>
    match s.abandon with
    | (.ok (), s) => ⟨inner, .error e, s⟩
    | (.error e, s) => ⟨inner, .error e, s⟩

mutual

def Step.run (s : Scope) : Step → Outcome
  | .enter => ⟨[], .ok, s.enter⟩
  | .exit => .ofAttempt [] s.exit
  | .declare name kind pos => .ofAttempt [] (s.declare name kind pos)
  | .use name pos => .ofAttempt [] (s.use name pos)
  | .isBound name => ⟨[], .bound (s.isBound name), s⟩
  | .body steps =>
    let (inner, error?, s) := Step.runInner s.enter steps
    closeBody inner error? s

/-- The steps inside a body, up to the first error. -/
def Step.runInner (s : Scope) : List Step → List Entry × Option ScopeError × Scope
  | [] => ([], none, s)
  | step :: rest =>
    let o := step.run s
    match o.answer with
    | .error e => (o.inner, some e, o.scope)
    | _ =>
      let (inner, error?, final) := Step.runInner o.scope rest
      (o.inner ++ ⟨.inBody, o.scope⟩ :: inner, error?, final)

end

/-- Runs all steps; after an error the next one finds the scope as it is. -/
def trace (s : Scope) : List Step → List Entry
  | [] => []
  | step :: rest =>
    let o := step.run s
    o.inner ++ ⟨o.answer, o.scope⟩ :: trace o.scope rest

end JsClass.Scope
