/-! Places in a source text. Only LF starts a new line; every other character is one column. -/
namespace JsClass

/-- A line and a column. Places in a text count both from one. -/
structure Position where
  line : Int
  col : Int
deriving DecidableEq

namespace Position

/-- The order of reading: by line, then by column. -/
def lt (p q : Position) : Bool := p.line < q.line || (p.line == q.line && p.col < q.col)

end Position

/-- A position together with the number of characters before it. -/
structure Place extends Position where
  offset : Nat
deriving DecidableEq

namespace Place

def start : Place := ⟨⟨1, 1⟩, 0⟩

/-- The place behind the character `c`. -/
def next (p : Place) (c : Char) : Place :=
  if c = '\n' then ⟨⟨p.line + 1, 1⟩, p.offset + 1⟩ else ⟨⟨p.line, p.col + 1⟩, p.offset + 1⟩

/-- The place behind the text `cs`. -/
def after (p : Place) (cs : List Char) : Place := cs.foldl next p

@[simp] theorem after_nil (p : Place) : p.after [] = p := rfl

@[simp] theorem after_cons (p : Place) (c : Char) (cs : List Char) :
    p.after (c :: cs) = (p.next c).after cs := rfl

theorem after_append (p : Place) (xs ys : List Char) :
    p.after (xs ++ ys) = (p.after xs).after ys := List.foldl_append

end Place

end JsClass
