import JsClass.Proofs.LayoutIndependence
import JsClass.Proofs.Likeness.Range
import JsClass.Proofs.StatementComposition

/-!
Reading comes to an end. Each rule that others come back to takes a token before it succeeds, and
none leaves the tokens, wherever it goes back. So one level more than there are tokens is enough,
and a guard around every such rule never stops it.
-/
namespace JsClass

variable {α β : Type} {tokens : List Token} {c : Context} {s t : State} {i j : Nat}

/-! Indexes of tokens. -/

/-- The token with this index comes next; behind the last token, it is the index of the end of
input. -/
structure State.IsAt (tokens : List Token) (i : Nat) (s : State) : Prop where
  index_le : i ≤ tokens.length
  pending : s.pending = tokens.drop i

namespace State

theorem IsAt.suffix (h : s.IsAt tokens i) : s.pending <:+ tokens := by
  rw [h.pending]
  exact List.drop_suffix i tokens

theorem IsAt.length (h : s.IsAt tokens i) : s.pending.length + i = tokens.length := by
  have hle := h.index_le
  rw [h.pending, List.length_drop]
  omega

theorem isAt_of_suffix (h : s.pending <:+ tokens) :
    s.IsAt tokens (tokens.length - s.pending.length) :=
  ⟨Nat.sub_le _ _, List.suffix_iff_eq_drop.1 h⟩

/-- A state with fewer tokens to come is further on. -/
theorem IsAt.lt (hs : s.IsAt tokens i) (ht : t.IsAt tokens j)
    (hlt : t.pending.length < s.pending.length) : i < j := by
  have := hs.length
  have := ht.length
  omega

end State

namespace Reply

/-- A call from the given index on ends among the tokens, and further on if it succeeds. -/
def Advances (tokens : List Token) (i : Nat) : Reply α → Prop
  | .ok _ t => ∃ j, i < j ∧ t.IsAt tokens j
  | .error _ t => ∃ j, t.IsAt tokens j

/-- A run ends behind the last token, or at a problem before one of them. It has not run out of
turns, and no private name was declared outside of all classes. -/
def Finishes (tokens : List Token) : Reply α → Prop
  | .ok _ t => t.IsAt tokens tokens.length
  | .error fault t => fault ≠ .exhausted ∧ fault ≠ .noClass ∧ ∃ i, t.IsAt tokens i

end Reply

/-! Rules under guard. -/

/-- The answer of a call that began at `s`, or an alarm if it ends anywhere but among the tokens or
succeeds without taking one. -/
def Reply.watched (tokens : List Token) (s : State) : Reply α → Reply α
  | .ok a t =>
    if t.pending <:+ tokens ∧ t.pending.length < s.pending.length then .ok a t
    else .error .exhausted t
  | .error fault t => if t.pending <:+ tokens then .error fault t else .error .exhausted t

/-- Runs a rule under guard, with an alarm also if it begins anywhere but among the tokens. -/
def Parser.watch (tokens : List Token) (p : Parser α) : Parser α := fun c s =>
  if s.pending <:+ tokens then (p c s).watched tokens s else .error .exhausted s

/-- A rule that always takes a token where it succeeds. -/
def Parser.Advancing (p : Parser α) : Prop :=
  ∀ ⦃c s a t⦄, c.finish.kind = .eof → p c s = .ok a t → t.pending.length < s.pending.length

section Rules

variable {V : α → β → Prop} {p : Parser α} {p' : Parser β}

/-- The guard never stops a rule that advances. -/
theorem Range.Runs.watch (hp : Range.Runs tokens V p p') (hadvance : p.Advancing) :
    Range.Runs tokens V p (p'.watch tokens) := by
  intro c s hc hs
  have hrun := hp hc hs
  have hlt := @hadvance c s
  rw [Parser.watch, if_pos hs]
  generalize p c s = r at hrun hlt
  generalize p' c s = r' at hrun
  cases hrun with
  | ok h ht =>
    rw [Reply.watched, if_pos ⟨ht, hlt hc rfl⟩]
    exact .ok h ht
  | error ht =>
    rw [Reply.watched, if_pos ht]
    exact .error ht

/-- A call from the given index on ends among the tokens. -/
theorem Range.Runs.advances {V : α → α → Prop} (hp : Range.Runs tokens V p p)
    (hadvance : p.Advancing) (hc : c.finish.kind = .eof) (hs : s.IsAt tokens i) :
    (p c s).Advances tokens i := by
  have hrun := hp hc hs.suffix
  have hlt := @hadvance c s
  generalize p c s = r at hrun hlt
  cases hrun with
  | ok _ ht =>
    have hat := State.isAt_of_suffix ht
    exact ⟨_, hs.lt hat (hlt hc rfl), hat⟩
  | error ht => exact ⟨_, State.isAt_of_suffix ht⟩

end Rules

namespace Grammar

/-- All rules that others come back to, under guard. -/
def watch (tokens : List Token) (g : Grammar) : Grammar where
  turns := g.turns
  statement := g.statement.watch tokens
  assignment := g.assignment.watch tokens
  unary := g.unary.watch tokens
  subscripted := g.subscripted.watch tokens
  atom := g.atom.watch tokens

/-- The rules down to the given depth, those of every level under guard. -/
def watchedLevel (tokens : List Token) : Nat → Grammar
  | 0 => exhausted
  | n + 1 => (watchedLevel tokens n).next.watch tokens

/-- Rules that advance, and with them the members of classes. -/
structure Advancing (g : Grammar) : Prop where
  statement : g.statement.Advancing
  assignment : g.assignment.Advancing
  unary : g.unary.Advancing
  subscripted : g.subscripted.Advancing
  atom : g.atom.Advancing
  classElement : g.classElement.Advancing

/-- Every level advances, however many turns a repetition may take. -/
theorem level_advancing (n turns : Nat) : { level n with turns := turns }.Advancing := by
  have hg {q : Sequel} :
      q.Grammars { level n with turns := turns } { level n with turns := turns } :=
    (Sequel.Grammars.level (Nat.le_refl n)).withTurns (Nat.le_refl turns)
  exact ⟨fun _ _ _ _ hc h => (hg.statement.advances hc h).2,
    fun _ _ _ _ hc h => (hg.assignment.advances hc h).2,
    fun _ _ _ _ hc h => (hg.unary.advances hc h).2,
    fun _ _ _ _ hc h => (hg.subscripted.advances hc h).2,
    fun _ _ _ _ hc h => (hg.atom.advances hc h).2,
    fun _ _ _ _ hc h => ((Sequel.classElement hg).advances hc h).2⟩

end Grammar

namespace Likeness

theorem Grammars.watch {g g' : Grammar} (hg : (range tokens).Grammars g g') (h : g.Advancing) :
    (range tokens).Grammars g (g'.watch tokens) :=
  ⟨hg.turns, Range.Runs.watch hg.statement h.statement,
    Range.Runs.watch hg.assignment h.assignment, Range.Runs.watch hg.unary h.unary,
    Range.Runs.watch hg.subscripted h.subscripted, Range.Runs.watch hg.atom h.atom⟩

/-- On every level, the rules under guard do what the rules do. -/
theorem watchedLevel (tokens : List Token) (n : Nat) :
    (range tokens).Grammars (Grammar.level n) (Grammar.watchedLevel tokens n) := by
  induction n with
  | zero => exact .exhausted
  | succ n ih => exact ih.next.watch (Grammar.level_advancing (n + 1) (Grammar.level (n + 1)).turns)

end Likeness

/-! Trees that are alike for being the same. -/

theorem Node.Alike.eq {n n' : Node} (h : n.Alike .equal n') : n = n' := by
  induction n using Node.induction generalizing n' with
  | step n ih =>
    have hshape : n.shape.map id = n'.shape.map id :=
      h.shape.map_eq (fun h => h) fun x hx _ hxy => ih x hx hxy
    rw [Shape.map_id, Shape.map_id] at hshape
    obtain ⟨shape, pos⟩ := n
    obtain ⟨shape', pos'⟩ := n'
    have hpos : pos = pos' := h.pos
    rw [hpos, show shape = shape' from hshape]

/-! Names that are read again. -/

/-- A name that may be read again is one token behind what follows it. -/
theorem Grammar.propertyKey_again {g : Grammar} {key : PropertyKey}
    (hc : c.finish.kind = .eof) (hs : s.IsAt tokens i) (hname : (c.next s).kind.isName)
    (h : g.propertyKey c s = .ok key t) : t.IsAt tokens (i + 1) := by
  have hne : (c.next s).kind ≠ .eof := fun hend => by simp [hend, Kind.isName] at hname
  have hlt := (Context.next_mem hc hne).2
  have hlength := hs.length
  refine ⟨by omega, ?_⟩
  rw [propertyKey_skips hname h, State.skip, hs.pending, List.tail_drop]

/-! Programs. -/

/-- A program is read to its end, or up to a problem. -/
theorem TokenStream.statements_finishes (d : Dialect) (options : Options) {ts : TokenStream}
    (hts : ts.IsClosed) : (ts.statements d options).Finishes ts.tokens := by
  have hrun := Likeness.program ((Likeness.range ts.tokens).level (ts.tokens.length + 1))
    (c := .initial d options ts.finish) (s := ⟨ts.tokens, [], .empty⟩) hts.finish List.suffix_rfl
  cases h : ts.statements d options with
  | ok body t =>
    obtain ⟨-, hpending, -⟩ := readsAll hts h
    exact ⟨Nat.le_refl _, by rw [hpending, List.drop_length]⟩
  | error fault t =>
    have hexplained := statements_safe hts.finish d options h
    rw [statements] at h
    rw [h] at hrun
    cases hrun with
    | error ht =>
      refine ⟨?_, ?_, _, State.isAt_of_suffix ht⟩
      · rintro rfl
        exact hexplained
      · rintro rfl
        exact hexplained

/-- No guard gives an alarm while a program is read. -/
theorem TokenStream.watched_statements (d : Dialect) (options : Options) {ts : TokenStream}
    (hts : ts.IsClosed) :
    (Grammar.watchedLevel ts.tokens (ts.tokens.length + 1)).program (.initial d options ts.finish)
      ⟨ts.tokens, [], .empty⟩ = ts.statements d options := by
  have hrun := Likeness.program (Likeness.watchedLevel ts.tokens (ts.tokens.length + 1))
    (c := .initial d options ts.finish) (s := ⟨ts.tokens, [], .empty⟩) hts.finish List.suffix_rfl
  unfold statements
  generalize (Grammar.level (ts.tokens.length + 1)).program _ _ = r at hrun
  generalize (Grammar.watchedLevel ts.tokens (ts.tokens.length + 1)).program _ _ = r' at hrun
  cases hrun with
  | ok h ht =>
    have hsame := h.imp fun _ _ => Node.Alike.eq
    rw [List.forall₂_eq_eq_eq] at hsame
    rw [hsame]
  | error ht => rfl

/-- Every program is read to its end or up to a problem, with one level more than it has tokens. All
the while the rules stay among the tokens; each statement, assignment and member of a class that is
read takes a token at least, and a name that is read again is the token before. -/
theorem programs_terminate (d : Dialect) (options : Options) (ts : TokenStream)
    (hts : ts.IsClosed) :
    (ts.statements d options).Finishes ts.tokens ∧
    (Grammar.watchedLevel ts.tokens (ts.tokens.length + 1)).program (.initial d options ts.finish)
      ⟨ts.tokens, [], .empty⟩ = ts.statements d options ∧
    ∀ (n turns i : Nat) (c : Context) (s : State), c.finish = ts.finish → s.IsAt ts.tokens i →
      let g := { Grammar.level n with turns := turns }
      (g.statement c s).Advances ts.tokens i ∧ (g.assignment c s).Advances ts.tokens i ∧
        (g.classElement c s).Advances ts.tokens i ∧
        ∀ key t, (c.next s).kind.isName → g.propertyKey c s = .ok key t →
          t.IsAt ts.tokens (i + 1) := by
  refine ⟨TokenStream.statements_finishes d options hts,
    TokenStream.watched_statements d options hts, fun n turns i c s hfinish hs => ?_⟩
  have hc : c.finish.kind = .eof := by rw [hfinish, hts.finish]
  have hrange := ((Likeness.range ts.tokens).level n).withTurns (Eq.refl turns)
  have hadvance := Grammar.level_advancing n turns
  refine ⟨?_, ?_, ?_, fun key t => Grammar.propertyKey_again hc hs⟩
  · exact Range.Runs.advances hrange.statement hadvance.statement hc hs
  · exact Range.Runs.advances hrange.assignment hadvance.assignment hc hs
  · exact Range.Runs.advances (Likeness.classElement hrange) hadvance.classElement hc hs

/-- A class with members that are read again: behind a word that does not modify, and for a name
that is both key and value. -/
def repeatedText : String :=
  "class A \x7b static b = \x7bc\x7d; get #d() \x7b\x7d e() \x7b this.#d \x7d \x7d"

theorem repeatedText_terminates : ∃ ts p, tokenize .withPrivate repeatedText = .ok ts ∧
    ts.IsClosed ∧ ts.tokens.length = 25 ∧ ts.parse .withPrivate .default = .ok p ∧
    (ts.statements .withPrivate .default).Finishes ts.tokens ∧
    ({ Grammar.level 9 with turns := 9 }.classElement (.initial .withPrivate .default ts.finish)
      ⟨ts.tokens.drop 3, [], Scope.empty.enter⟩).Advances ts.tokens 3 := by
  obtain ⟨ts, p, hts, hclosed, hp, -⟩ := exists_of_read repeatedText 0 (by decide +kernel)
  have hlength : (tokenize .withPrivate repeatedText).toOption.map (·.tokens.length) = some 25 := by
    decide +kernel
  rw [hts] at hlength
  have hlength : ts.tokens.length = 25 := Option.some.inj hlength
  obtain ⟨hfinishes, -, hcalls⟩ := programs_terminate .withPrivate .default ts hclosed
  exact ⟨ts, p, hts, hclosed, hlength, hp, hfinishes,
    (hcalls 9 9 3 _ _ rfl ⟨by omega, rfl⟩).2.2.1⟩

end JsClass
