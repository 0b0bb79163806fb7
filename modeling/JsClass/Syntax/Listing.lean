import JsClass.Numeral.Shortest
import JsClass.Syntax.Fields
import JsClass.Text.Pieces

/-!
The listing of a tree: each node as its kind with its named fields. A listing is made for lines
on which the fields of a node stand below each other, and the items of a list too; it is then
written on one line, with a blank for each line break. The column at which a part would stand
decides into how many pieces a text is cut.
-/
namespace JsClass

/-- Items between brackets, with a comma and a space between them. -/
def Text.joined (opening : String) (items : List Text) (closing : String) : Text :=
  ofString opening ++ (items.intersperse (ofString ", ")).flatten ++ ofString closing

def Text.ofBool (b : Bool) : Text := ofString (if b then "True" else "False")

/-- What stands for a missing part. -/
def Text.missing : Text := ofString "None"

def Numeral.render : Numeral → Text
  | .integer n => .ofString (toString n)
  | .float x => .ofChars x.render

/-- A part of a listing, by the column at which it stands. -/
abbrev Listing := Nat → Text

namespace Listing

/-- What is the same at every column. -/
def constant (t : Text) : Listing := fun _ => t

def optional (part : Option Listing) : Listing := part.getD (constant .missing)

/-- Items stand behind the opening bracket. -/
def list (items : List Listing) : Listing := fun column =>
  .joined "[" (items.map (· (column + 1))) "]"

/-- Fields stand behind the opening bracket, and their contents behind their names. -/
def record (label : String) (fields : List (String × Listing)) : Listing := fun column =>
  let contents := fields.map fun (name, part) =>
    .ofString (name ++ "=") ++ part (column + label.length + 1 + name.length + 1)
  .joined (label ++ "(") contents ")"

end Listing

/-- A field's content, its children being listed already. -/
def Field.listing : Field Listing → Listing
  | .node child => child
  | .optional child => .optional child
  | .list children => .list children
  | .sparse children => .list (children.map .optional)
  | .text t => t.quotedAt
  | .flag b => .constant (.ofBool b)
  | .numeral n => .constant n.render

namespace Node

def listing : Node → Listing :=
  recurse fun n s =>
    let place := [("line", n.pos.line), ("col", n.pos.col)].map fun (name, number) =>
      (name, Listing.constant (.ofString (toString number)))
    .record s.label (s.fields.map (fun (name, field) => (name, field.listing)) ++ place)

/-- Whether a number in the tree has more digits than a listing may show. -/
def isOversized (n : Node) : Bool :=
  match n.shape with
  | .number (.integer value) _ => Numeral.maxDecimalDigits < (Nat.toDigits 10 value.natAbs).length
  | _ => false

end Node

namespace Program

def listing (p : Program) : Listing :=
  .record "Program" [("body", .list (p.body.map Node.listing)),
    ("source_type", (Text.ofString p.sourceType.text).quotedAt)]

/-- The listing of a program; there is none if it has an oversized number. -/
def render? (p : Program) : Option Text :=
  if p.nodes.any Node.isOversized then none else some (p.listing 0)

end Program

end JsClass
