import JsClass.Grammar.Parser

/-! Repetition. The number of turns is bounded from outside; a turn that goes on takes a token at
least, so one turn more than there are tokens is always enough. -/
namespace JsClass.Parser

variable {σ α : Type}

/-- What a turn of a repetition says: the items it read, and whether to go on. -/
inductive Turn (σ α : Type) where
  | stop (items : List α)
  | more (items : List α) (next : σ)

/-- Reads items turn by turn, handing a state on. -/
def collectFrom (turn : σ → Parser (Turn σ α)) : Nat → σ → Parser (List α)
  | 0, _ => fail .exhausted
  | turns + 1, s => do
    match ← turn s with
    | .stop items => return items
    | .more items next => return items ++ (← collectFrom turn turns next)

/-- Reads items turn by turn. -/
def collect (turns : Nat) (turn : Parser (Turn Unit α)) : Parser (List α) :=
  collectFrom (fun _ => turn) turns ()

/-- Extends a value as long as the step finds a way to. -/
def extend (step : α → Parser (Option α)) : Nat → α → Parser α
  | 0, _ => fail .exhausted
  | turns + 1, a => do
    match ← step a with
    | none => return a
    | some b => extend step turns b

/-- Items with commas between them up to the closing punctuator, which is taken; a comma may
stand before it. -/
def separated (turns : Nat) (close : Punct) (item : Parser α) : Parser (List α) := do
  if ← accept close then return []
  else
    let first ← item
    let rest ← collect turns do
      if ← accept close then return .stop []
      else
        let _ ← expect .comma
        if ← accept close then return .stop []
        else return .more [← item] ()
    return first :: rest

end JsClass.Parser
