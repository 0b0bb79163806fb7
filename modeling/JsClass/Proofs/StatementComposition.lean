import JsClass.Parse
import JsClass.Proofs.ConservativeExtension
import JsClass.Proofs.Safety.Statements
import JsClass.Proofs.Sequel.Statements
import JsClass.Proofs.TokenCover

/-!
Programs one behind the other. Nothing of a program reaches beyond its last statement: with a
semicolon between them, two programs are read as one, and the semicolon ends the last statement
of the first program or is a statement of its own.
-/
namespace JsClass

/-! Statements one behind the other. -/

/-- Statements are read one by one, each of them where a token is left. -/
inductive Grammar.ReadsAll (g : Grammar) (c : Context) : State → List Node → State → Prop
  | nil {s} : ReadsAll g c s [] s
  | cons {s n u ns t} (hnext : (c.next s).kind ≠ .eof) (hread : g.statement c s = .ok n u)
    (hrest : ReadsAll g c u ns t) : ReadsAll g c s (n :: ns) t

/-- One turn of reading a program. -/
def Grammar.programTurn (g : Grammar) : Parser (Parser.Turn Unit Node) := do
  let t ← Parser.peek
  if t.kind == .eof then return .stop [] else return .more [← g.statement] ()

variable {q : Sequel} {g g' : Grammar} {c : Context} {s t u : State} {n : Node} {ns ms : List Node}

namespace Grammar

theorem programTurn_end (hnext : (c.next s).kind = .eof) :
    g.programTurn c s = .ok (.stop []) s := by
  have hpeek : Parser.peek c s = .ok (c.next s) s := rfl
  rw [programTurn, Parser.bind_apply, hpeek]
  simp [hnext]

theorem programTurn_more (hnext : (c.next s).kind ≠ .eof) (hread : g.statement c s = .ok n u) :
    g.programTurn c s = .ok (.more [n] ()) u := by
  have hpeek : Parser.peek c s = .ok (c.next s) s := rfl
  rw [programTurn, Parser.bind_apply, hpeek]
  simp [hnext, hread]

/-- A program is read statement by statement, up to the end of input. -/
theorem readsAll_of_program (h : g.program c s = .ok ns t) :
    g.ReadsAll c s ns t ∧ (c.next t).kind = .eof := by
  have h : Parser.collectFrom (fun _ => g.programTurn) g.turns () c s = .ok ns t := h
  refine Parser.collectFrom_induction
    (P := fun _ s ns t => g.ReadsAll c s ns t ∧ (c.next t).kind = .eof)
    (fun {_ s items t} h => ?_) (fun {_ s items _ u rest t} h ih => ?_) h
  · by_cases hnext : (c.next s).kind = .eof
    · rw [programTurn_end hnext] at h
      cases h
      exact ⟨.nil, hnext⟩
    · simp [programTurn, hnext] at h
  · by_cases hnext : (c.next s).kind = .eof
    · rw [programTurn_end hnext] at h
      cases h
    · simp only [programTurn, Parser.bind_eq_ok, Parser.peek_eq_ok, Parser.ite_eq_ok, beq_iff_eq,
        Parser.pure_eq_ok] at h
      obtain ⟨_, _, ⟨rfl, rfl⟩, ⟨hend, -⟩ | ⟨-, n, v, hread, ⟨⟩, rfl⟩⟩ := h
      · exact absurd hend hnext
      · exact ⟨.cons hnext hread ih.1, ih.2⟩

end Grammar

namespace Grammar.ReadsAll

theorem append (hs : g.ReadsAll c s ns t) (ht : g.ReadsAll c t ms u) :
    g.ReadsAll c s (ns ++ ms) u := by
  induction hs with
  | nil => exact ht
  | cons hnext hread _ ih => exact .cons hnext hread (ih ht)

/-- One turn more than there are statements is enough. -/
theorem collect {turns : Nat} (h : g.ReadsAll c s ns t) (ht : (c.next t).kind = .eof)
    (hturns : ns.length < turns) : Parser.collect turns g.programTurn c s = .ok ns t := by
  induction h generalizing turns with
  | nil =>
    cases turns with
    | zero => cases hturns
    | succ turns => exact Parser.bind_eq_ok.2 ⟨_, _, programTurn_end ht, rfl⟩
  | cons hnext hread _ ih =>
    cases turns with
    | zero => cases hturns
    | succ turns =>
      have hrest := ih ht (Nat.lt_of_succ_lt_succ hturns)
      exact Parser.bind_eq_ok.2 ⟨_, _, programTurn_more hnext hread,
        Parser.bind_eq_ok.2 ⟨_, _, hrest, rfl⟩⟩

/-- At the end of input nothing more is read. -/
theorem eq_nil (h : g.ReadsAll c s ns t) (hnext : (c.next s).kind = .eof) : ns = [] ∧ s = t := by
  cases h with
  | nil => exact ⟨rfl, rfl⟩
  | cons hne => exact absurd hnext hne

/-- The statements of a program are read in the same way before a sequel. -/
theorem sequel (hg : q.Grammars g g') (hc : c.finish.kind = .eof) (h : g.ReadsAll c s ns t)
    (ht : t.pending = []) :
    ∃ w, g'.ReadsAll (q.context c) (q.state s) ns w ∧ q.Resumes True t w := by
  induction h with
  | nil => exact ⟨_, .nil, .same⟩
  | cons hnext hread hrest ih =>
    have hrun := hg.statement hc trivial hread
    have hnext' := q.next_state (c := c) (Sequel.pending_ne_nil hc hnext)
    obtain ⟨v, hv, hresumes⟩ := hrun.resumes (Nat.zero_le _)
    cases hresumes with
    | same =>
      obtain ⟨w, hw, hresumes⟩ := ih ht
      exact ⟨w, .cons (by rwa [hnext']) hv hw, hresumes⟩
    | taken _ hp hk =>
      obtain ⟨rfl, rfl⟩ := hrest.eq_nil (by simp [Context.next, hp, hc])
      exact ⟨_, .cons (by rwa [hnext']) hv .nil, .taken trivial hp hk⟩

/-- Each statement takes a token. -/
theorem length_le {k : Nat} (hc : c.finish.kind = .eof) (h : (level k).ReadsAll c s ns t) :
    ns.length ≤ s.pending.length := by
  induction h with
  | nil => exact Nat.zero_le _
  | cons _ hread _ ih =>
    have := ((Sequel.Grammars.level (Nat.le_refl k)).statement.advances hc hread).2
    rw [List.length_cons]
    omega

end Grammar.ReadsAll

/-! Single statements. -/

/-- A semicolon that ends nothing is a statement of its own. -/
theorem Grammar.statement_semicolon {k : Nat} (hnext : (c.next s).kind = .punct .semicolon) :
    (level (k + 1)).statement c s = .ok ((c.next s).node .empty) s.skip := by
  simp [level, next, statementRule, declarationKind?, simpleStatement, hnext]

theorem Grammar.unaryRule_else (hnext : (c.next s).kind = .keyword .else_) :
    g.unaryRule c s ≠ .ok n t := by
  intro h
  simp only [unaryRule, Parser.bind_eq_ok, Parser.peek_eq_ok, Parser.context_eq_ok] at h
  obtain ⟨_, _, ⟨rfl, rfl⟩, _, _, ⟨rfl, rfl⟩, h⟩ := h
  rw [hnext, if_neg (by simp)] at h
  have h : (g.subscriptedRule >>= Parser.extend postfixUpdate g.turns) c s = .ok n t := h
  simp [subscriptedRule, atomRule, hnext] at h

theorem Grammar.assignmentRule_else (hnext : (c.next s).kind = .keyword .else_) :
    g.assignmentRule c s ≠ .ok n t := by
  simp [assignmentRule, conditionalRule, binaryRule, hnext, unaryRule_else]

/-- No statement starts with `else`. -/
theorem Grammar.statement_else {k : Nat} (hnext : (c.next s).kind = .keyword .else_) :
    (level k).statement c s ≠ .ok n t := by
  intro h
  cases k with
  | zero => cases h
  | succ k =>
    simp [level, next, statementRule, declarationKind?, simpleStatement, otherStatement,
      isAsyncFunction, expressionStatement, expressionRule, commaExpression, hnext,
      assignmentRule_else] at h

/-! Programs. -/

theorem Grammar.level_turns (k : Nat) : (level k).turns = k := by
  induction k with
  | zero => rfl
  | succ k ih => exact congrArg (· + 1) ih

theorem Scope.eq_empty {x : Scope} (h : x.depth = 0) : x = .empty := by
  obtain ⟨frames⟩ := x
  exact congrArg Scope.mk (List.length_eq_zero_iff.1 h)

namespace TokenStream

variable {ts : TokenStream} {d : Dialect} {options : Options}

/-- A program is read to its end, and all its classes are left. -/
theorem readsAll (hs : ts.IsClosed) (h : ts.statements d options = .ok ns t) :
    (Grammar.level (ts.tokens.length + 1)).ReadsAll (.initial d options ts.finish)
      ⟨ts.tokens, [], .empty⟩ ns t ∧ t.pending = [] ∧ t.scope = .empty := by
  obtain ⟨hreads, hend⟩ := Grammar.readsAll_of_program h
  have hrun := Grammar.statementsUntil_safe (Grammar.level_safe (ts.tokens.length + 1))
    (fun _ => false) (c := .initial d options ts.finish) (s := ⟨ts.tokens, [], .empty⟩) hs.finish
    (Nat.lt_succ_self _) trivial
  rw [statements, Grammar.program] at h
  rw [h] at hrun
  obtain ⟨⟨hsuffix, hdepth⟩, -⟩ := hrun
  refine ⟨hreads, ?_, ?_⟩
  · cases hp : t.pending with
    | nil => rfl
    | cons x rest =>
      have hx : x ∈ ts.tokens := hsuffix.subset (by simp [hp])
      rw [Context.next, hp] at hend
      exact absurd hend (hs.tokens x hx)
  · exact Scope.eq_empty hdepth

/-- There are enough turns for what is read statement by statement. -/
theorem parse_of_readsAll (hfinish : ts.finish.kind = .eof)
    (h : (Grammar.level (ts.tokens.length + 1)).ReadsAll (.initial d options ts.finish)
      ⟨ts.tokens, [], .empty⟩ ns t) (ht : t.pending = []) :
    ts.parse d options = .ok ⟨⟨ns, options.sourceType⟩, t.reported⟩ := by
  refine parse_eq_ok.2 ⟨ns, t, h.collect ?_ ?_, rfl⟩
  · rw [Context.next, ht]
    exact hfinish
  · rw [Grammar.level_turns]
    exact Nat.lt_succ_of_le (h.length_le hfinish)

/-- A program does not start with `else`. -/
theorem first_ne_else (hs : ts.IsClosed) (h : ts.statements d options = .ok ns t) {finish : Token}
    (hfinish : finish.kind = .eof) : (ts.tokens.headD finish).kind ≠ .keyword .else_ := by
  obtain ⟨hreads, hpending, -⟩ := readsAll hs h
  cases htokens : ts.tokens with
  | nil => simp [hfinish]
  | cons x rest =>
    intro helse
    rw [htokens] at hreads
    cases hreads with
    | nil => cases hpending
    | cons _ hread => exact Grammar.statement_else (by simpa [Context.next] using helse) hread

end TokenStream

/-- A semicolon behind a program belongs to its last statement, or it is a statement. -/
theorem Sequel.Resumes.between {k : Nat} {semicolon : Token} {rest : List Token} {w : State}
    (h : q.Resumes True t w) (htail : q.tail = semicolon :: rest) (ht : t.pending = [])
    (hsemicolon : semicolon.kind = .punct .semicolon) :
    ∃ between, (between = [] ∨ between = [semicolon.node .empty]) ∧
      (Grammar.level (k + 1)).ReadsAll c w between ⟨rest, q.earlier ++ t.reported, t.scope⟩ := by
  have hskip : (q.state t).skip = ⟨rest, q.earlier ++ t.reported, t.scope⟩ := by
    simp [State.skip, Sequel.state, ht, htail]
  cases h with
  | same =>
    have hnext : c.next (q.state t) = semicolon := by
      simp [Context.next, Sequel.state, ht, htail]
    have hread := Grammar.statement_semicolon (k := k) (c := c) (s := q.state t)
      (by rw [hnext, hsemicolon])
    rw [hnext, hskip] at hread
    exact ⟨_, Or.inr rfl, .cons (by simp [hnext, hsemicolon]) hread .nil⟩
  | taken =>
    rw [hskip]
    exact ⟨[], Or.inl rfl, .nil⟩

/-- Two programs with a semicolon between them are one program: its statements are those of both,
with an empty statement between them at most, and so are the problems recorded. -/
theorem programs_compose (d : Dialect) (options : Options) (first second : TokenStream)
    (hfirst : first.IsClosed) (hsecond : second.IsClosed) (semicolon finish : Token)
    (hsemicolon : semicolon.kind = .punct .semicolon) (hfinish : finish.kind = .eof)
    (p p' : Parsed) (h : first.parse d options = .ok p) (h' : second.parse d options = .ok p') :
    ∃ between, (between = [] ∨ between = [semicolon.node .empty]) ∧
      TokenStream.parse d options ⟨first.tokens ++ semicolon :: second.tokens, finish⟩ =
        .ok ⟨⟨p.program.body ++ between ++ p'.program.body, options.sourceType⟩,
          p.reported ++ p'.reported⟩ := by
  obtain ⟨body, t, hbody, rfl⟩ := TokenStream.parse_eq_ok.1 h
  obtain ⟨body', t', hbody', rfl⟩ := TokenStream.parse_eq_ok.1 h'
  obtain ⟨hreads, ht, hscope⟩ := TokenStream.readsAll hfirst hbody
  obtain ⟨hreads', ht', -⟩ := TokenStream.readsAll hsecond hbody'
  -- the first program sees the semicolon where it saw its end
  let q : Sequel := ⟨semicolon :: second.tokens, finish, [], Or.inr hsemicolon,
    TokenStream.first_ne_else hsecond hbody' hfinish⟩
  obtain ⟨w, hw, hresumes⟩ := hreads.sequel (q := q) (.level (m :=
    (first.tokens ++ semicolon :: second.tokens).length + 1) (by simp)) hfirst.finish ht
  obtain ⟨between, hbetween, hmiddle⟩ := hresumes.between rfl ht hsemicolon
  -- the second one sees another end, behind what the first one has recorded
  let q' : Sequel := .alone finish t.reported hfinish
  obtain ⟨w', hw', hresumes'⟩ := hreads'.sequel (q := q') (.level (m :=
    (first.tokens ++ semicolon :: second.tokens).length + 1) (by simp; omega)) hsecond.finish ht'
  have hstart :
      q'.state ⟨second.tokens, [], .empty⟩ = ⟨second.tokens, [] ++ t.reported, t.scope⟩ := by
    simp [q', Sequel.state, Sequel.alone, hscope]
  rw [hstart] at hw'
  refine ⟨between, hbetween, ?_⟩
  cases hresumes' with
  | taken _ _ hk => simp [q', Sequel.head, Sequel.alone, hfinish] at hk
  | same =>
    have hall := (hw.append hmiddle).append hw'
    exact TokenStream.parse_of_readsAll (t := q'.state t') hfinish hall
      (by simp [q', Sequel.state, Sequel.alone, ht'])

/-- A conditional statement that ends in parentheses, where an arrow, an `else` or a semicolon might
follow. -/
def leadingText : String := "if (a) (class \x7b get b(c) \x7b\x7d \x7d)"

/-- A loop that ends in parentheses, behind a class with a problem of its own. -/
def followingText : String := "class D \x7b #p; set q() \x7b this.#p \x7d \x7d do x-- \n while (x)"

/-- A text that is read, with the number of problems recorded. -/
theorem exists_of_read (text : String) (count : Nat)
    (h : ((tokenize .withPrivate text).toOption.bind fun s =>
      (s.parse .withPrivate .default).toOption.map fun p => p.reported.length) = some count) :
    ∃ s p, tokenize .withPrivate text = .ok s ∧ s.IsClosed ∧
      s.parse .withPrivate .default = .ok p ∧ p.reported.length = count := by
  cases hs : tokenize .withPrivate text with
  | error e => simp [hs, Except.toOption] at h
  | ok s =>
    cases hp : s.parse .withPrivate .default with
    | error e => simp [hs, hp, Except.toOption] at h
    | ok p =>
      have hcovers := TokenStream.covers_of_tokenize hs
      refine ⟨s, p, rfl, ⟨hcovers.finish.1, hcovers.ne_eof⟩, hp, ?_⟩
      simpa [hs, hp, Except.toOption] using h

theorem leadingText_before_followingText : ∃ s s' p p', tokenize .withPrivate leadingText = .ok s ∧
    tokenize .withPrivate followingText = .ok s' ∧ s.IsClosed ∧ s'.IsClosed ∧
    s.parse .withPrivate .default = .ok p ∧ s'.parse .withPrivate .default = .ok p' ∧
    p.reported.length = 1 ∧ p'.reported.length = 1 ∧
    ∃ between, (between = [] ∨
        between = [(⟨.punct .semicolon, .start, false⟩ : Token).node .empty]) ∧
      TokenStream.parse .withPrivate .default
        ⟨s.tokens ++ ⟨.punct .semicolon, .start, false⟩ :: s'.tokens, ⟨.eof, .start, false⟩⟩ =
        .ok ⟨⟨p.program.body ++ between ++ p'.program.body, .script⟩,
          p.reported ++ p'.reported⟩ := by
  obtain ⟨s, p, hs, hclosed, hp, hcount⟩ :=
    exists_of_read leadingText 1 (by decide +kernel)
  obtain ⟨s', p', hs', hclosed', hp', hcount'⟩ :=
    exists_of_read followingText 1 (by decide +kernel)
  exact ⟨s, s', p, p', hs, hs', hclosed, hclosed', hp, hp', hcount, hcount',
    programs_compose .withPrivate .default s s' hclosed hclosed' _ _ rfl rfl p p' hp hp'⟩

end JsClass
