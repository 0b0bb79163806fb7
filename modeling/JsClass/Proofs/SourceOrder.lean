import JsClass.Proofs.Writing.Statements

/-!
Walking through a tree goes through the text. Every node has the position of a token, no node stands
behind anything below it, and the walk never goes back in the text.
-/
namespace JsClass

/-- The order of reading, the position itself included. -/
def Position.le (p q : Position) : Prop := p = q ∨ p.lt q

/-- Nodes of one token have its position, and those of the tokens to come stand behind it. -/
theorem Written.sorted {ts : List Token} {ns : List Node} (h : Written ts ns)
    (hts : ts.Pairwise fun t u => t.pos.lt u.pos) :
    ns.Pairwise fun n m => n.pos.le m.pos := by
  induction h with
  | nil => exact .nil
  | @cons t ts ns ms h hs ih =>
    obtain ⟨hfirst, hrest⟩ := List.pairwise_cons.1 hts
    refine List.pairwise_append.2 ⟨?_, ih hrest, ?_⟩
    · refine List.pairwise_of_forall_mem_list fun n hn m hm => Or.inl ?_
      rw [h.pos_eq n hn, h.pos_eq m hm]
    · intro n hn m hm
      obtain ⟨u, hu, hpos⟩ := hs.exists_token hm
      rw [h.pos_eq n hn, hpos]
      exact Or.inr (hfirst u hu)

/-- The walk through a node is a part of every walk that comes to the node. -/
theorem Node.walk_sublist {n m : Node} (h : m ∈ n.walk) : m.walk.Sublist n.walk := by
  induction n using Node.induction with
  | step n ih =>
    rw [walk_eq, List.mem_cons] at h
    rcases h with rfl | h
    · exact .refl _
    · obtain ⟨child, hchild, hm⟩ := List.mem_flatMap.1 h
      have hbelow : child.walk.Sublist (n.children.flatMap walk) :=
        List.sublist_flatten_of_mem (List.mem_map_of_mem hchild)
      rw [n.walk_eq]
      exact ((ih child hchild hm).trans hbelow).cons n

theorem Program.walk_sublist {program : Program} {n : Node} (h : n ∈ program.nodes) :
    n.walk.Sublist program.nodes := by
  obtain ⟨statement, hstatement, hn⟩ := List.mem_flatMap.1 h
  exact (Node.walk_sublist hn).trans
    (List.sublist_flatten_of_mem (List.mem_map_of_mem hstatement))

/-- Of a program that was read, every node has the position of a token, which is not behind the
position of any node below it, and the walk through all nodes is in the order of the text. -/
theorem walk_in_source_order {options : Options} {source : String} {parsed : Parsed}
    (h : parse options source = .ok parsed) :
    ∃ s, tokenize .withPrivate source = .ok s ∧
      (∀ n ∈ parsed.program.nodes, ∃ t ∈ s.tokens, n.pos = t.pos) ∧
      (∀ n ∈ parsed.program.nodes, ∀ m ∈ n.walk, n.pos.le m.pos) ∧
      (parsed.program.nodes.map Node.pos).Pairwise Position.le := by
  obtain ⟨s, t, hs, -⟩ := parse_eq_ok h
  have hwritten := written_of_parse hs h
  have hsorted := hwritten.sorted (tokens_pairwise_lt hs)
  refine ⟨s, hs, fun n hn => hwritten.exists_token hn, fun n hn m hm => ?_,
    List.pairwise_map.2 hsorted⟩
  have hbelow := hsorted.sublist (Program.walk_sublist hn)
  rw [n.walk_eq] at hbelow hm
  rcases List.mem_cons.1 hm with rfl | hm
  · exact Or.inl rfl
  · exact (List.pairwise_cons.1 hbelow).1 m hm

/-- Parentheses that are dropped, a member that begins with its modifier and a value that begins
with its parenthesis, over several lines. -/
def scatteredText : String :=
  "((a)\n+ b).c(d, ...e)\nclass A extends (B) \x7b #p = [, q]\n" ++
  "static async *m(x = 1) \x7b return \x7bx, y: z\x7d \x7d \x7d\nfor (let i of (f, g)) h => i"

theorem scatteredText_in_order : ∃ parsed s, parse .default scatteredText = .ok parsed ∧
    tokenize .withPrivate scatteredText = .ok s ∧ parsed.program.nodes.length = 44 ∧
    (∀ n ∈ parsed.program.nodes, ∃ t ∈ s.tokens, n.pos = t.pos) ∧
    (∀ n ∈ parsed.program.nodes, ∀ m ∈ n.walk, n.pos.le m.pos) ∧
    (parsed.program.nodes.map Node.pos).Pairwise Position.le := by
  have hread : (parse .default scatteredText).toOption.map (·.program.nodes.length) = some 44 := by
    decide +kernel
  cases hp : parse .default scatteredText with
  | error e => simp [hp, Except.toOption] at hread
  | ok parsed =>
    obtain ⟨s, hs, hplaced⟩ := walk_in_source_order hp
    have hlength : parsed.program.nodes.length = 44 := by
      simpa [hp, Except.toOption] using hread
    exact ⟨parsed, s, rfl, hs, hlength, hplaced⟩

end JsClass
