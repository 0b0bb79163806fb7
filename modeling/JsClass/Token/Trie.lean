/-!
Longest match against a table of words, by a trie. `Trie.longest` walks as deep as the text
allows and answers with the last entry that it passed.
-/
namespace JsClass

variable {α : Type}

/-- A node has the entry of the word that ends there, and its branches by next character. -/
inductive Trie (α : Type) where
  | node (entry : Option α) (branches : List (Char × Trie α))

namespace Trie

def empty : Trie α := .node none []

def entry : Trie α → Option α
  | .node e _ => e

def branches : Trie α → List (Char × Trie α)
  | .node _ bs => bs

def branch? (t : Trie α) (c : Char) : Option (Trie α) := t.branches.lookup c

/-- Replaces the branch at `c`, or adds it at the end. -/
def setBranch (c : Char) (u : Trie α) : List (Char × Trie α) → List (Char × Trie α)
  | [] => [(c, u)]
  | (d, v) :: rest => if d = c then (d, u) :: rest else (d, v) :: setBranch c u rest

def insert : List Char → α → Trie α → Trie α
  | [], a, t => .node (some a) t.branches
  | c :: word, a, t =>
    .node t.entry (setBranch c (insert word a ((t.branch? c).getD empty)) t.branches)

def ofTable (table : List (List Char × α)) : Trie α :=
  table.foldl (fun t row => insert row.1 row.2 t) empty

/-- The longest nonempty word of the trie that the text starts with: its entry, its spelling and
the text behind it. -/
def longest (t : Trie α) : List Char → Option (α × List Char × List Char)
  | [] => none
  | c :: cs =>
    match t.branch? c with
    | none => none
    | some u =>
      match longest u cs with
      | some (a, word, rest) => some (a, c :: word, rest)
      | none => u.entry.map fun a => (a, [c], cs)

end Trie

end JsClass
