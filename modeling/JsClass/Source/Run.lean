/-! Runs of characters at the start of a text. -/
namespace JsClass

variable {α : Type}

/-- The longest part at the start whose members satisfy `p`, and the rest. -/
def splitWhile (p : α → Bool) (xs : List α) : List α × List α := (xs.takeWhile p, xs.dropWhile p)

theorem splitWhile_append (p : α → Bool) (xs : List α) :
    (splitWhile p xs).1 ++ (splitWhile p xs).2 = xs := List.takeWhile_append_dropWhile

end JsClass
