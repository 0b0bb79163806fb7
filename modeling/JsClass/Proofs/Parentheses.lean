import JsClass.Proofs.BracketNesting
import JsClass.Proofs.Endings.Statements
import JsClass.Proofs.OperatorGrouping

/-!
Parentheses around a whole expression. They change nothing in its tree: behind the opening one the
expression is read as it is at the start of a statement, and before the closing one it ends as it
does at the end of input.
-/
namespace JsClass

variable {c : Context} {s t : State} {g : Grammar} {n e : Node}

/-- Whether the node is an expression that makes a statement. -/
def Node.isExprStmt (n : Node) : Bool :=
  match n.shape with
  | .exprStmt _ => true
  | _ => false

theorem Node.exists_of_isExprStmt (h : n.isExprStmt) : ∃ e pos, n = ⟨.exprStmt e, pos⟩ := by
  obtain ⟨shape, pos⟩ := n
  cases shape
  case exprStmt e => exact ⟨e, pos, rfl⟩
  all_goals cases h

/-- A rule that reads statements of other forms only. -/
abbrev Parser.NeverExprStmt (p : Parser Node) : Prop := p.Returns fun n => n.isExprStmt = false

namespace Grammar

open JsClass.Parser

/-! Statements of other forms. -/

theorem block_neverExprStmt : g.block.NeverExprStmt :=
  .bind fun _ => .bind fun _ => .bind fun _ => .pure rfl

theorem function_neverExprStmt (form : FunctionForm) (isAsync : Bool) :
    (g.function form isAsync).NeverExprStmt :=
  .bind fun _ => .bind fun _ => .bind fun _ =>
    .ite (.reject _ _) (.bind fun _ => .bind fun _ => .pure rfl)

theorem class_neverExprStmt (isExpression : Bool) : (g.class_ isExpression).NeverExprStmt := by
  have hrest : (g.classRest isExpression).NeverExprStmt :=
    .bind fun _ => .within (.bind fun _ => .bind fun _ => .bind fun _ => .pure rfl)
  refine .bind fun c => ?_
  cases c.dialect with
  | plain => exact hrest
  | withPrivate => exact .inClassBody hrest

theorem varStatement_neverExprStmt (kind : VarKind) : (g.varStatement kind).NeverExprStmt := by
  have hdecl : (g.varDecl kind).NeverExprStmt := .bind fun _ => .bind fun _ => .pure rfl
  exact .bind_of hdecl fun _ h => .bind fun _ => .pure h

theorem returnStatement_neverExprStmt : g.returnStatement.NeverExprStmt :=
  .bind fun _ => .bind fun _ => .ite (.reject _ _) (.bind fun _ => .bind fun _ => .ite
    (.bind fun _ => .pure rfl) (.bind fun _ => .bind fun _ => .pure rfl))

theorem ifStatement_neverExprStmt : g.ifStatement.NeverExprStmt :=
  .bind fun _ => .bind fun _ => .bind fun _ => .bind fun _ => .ite (.bind fun _ => .pure rfl)
    (.pure rfl)

theorem whileStatement_neverExprStmt : g.whileStatement.NeverExprStmt :=
  .bind fun _ => .bind fun _ => .bind fun _ => .pure rfl

theorem doWhileStatement_neverExprStmt : g.doWhileStatement.NeverExprStmt :=
  .bind fun _ => .bind fun _ => .bind fun _ => .bind fun _ => .bind fun _ => .pure rfl

theorem forStatement_neverExprStmt : g.forStatement.NeverExprStmt := by
  have hin (z : Token) (left : Node) : (g.forInRest z left).NeverExprStmt :=
    .bind fun _ => .ite (.bind fun _ => .bind fun _ => .bind fun _ => .pure rfl)
      (.bind fun _ => .bind fun _ => .bind fun _ => .bind fun _ => .pure rfl)
  have hrest (z : Token) (init : Option Node) : (g.forRest z init).NeverExprStmt :=
    .bind fun _ => .bind fun _ => .bind fun _ => .bind fun _ => .bind fun _ => .bind fun _ =>
      .pure rfl
  refine .bind fun z => .bind fun _ => .bind fun kind => ?_
  cases kind with
  | some kind =>
    exact .bind fun _ => .ite (.bind fun _ => .bind fun _ => hin z _) (.bind fun _ => hrest z _)
  | none => exact .bind fun _ => .ite (.bind fun _ => hin z _) (.bind fun _ => hrest z _)

theorem switchStatement_neverExprStmt : g.switchStatement.NeverExprStmt :=
  .bind fun _ => .bind fun _ => .bind fun _ => .bind fun _ => .bind fun _ => .pure rfl

theorem wordStatement_neverExprStmt {shape : Shape Node}
    (hshape : ∀ pos, Node.isExprStmt ⟨shape, pos⟩ = false) :
    (wordStatement shape).NeverExprStmt :=
  .bind fun _ => .bind fun _ => .pure (hshape _)

theorem throwStatement_neverExprStmt : g.throwStatement.NeverExprStmt :=
  .bind fun _ => .bind fun _ => .ite (.reject _ _) (.bind fun _ => .bind fun _ => .pure rfl)

theorem tryStatement_neverExprStmt : g.tryStatement.NeverExprStmt :=
  .bind fun _ => .bind fun _ => .bind fun _ => .bind fun _ => .ite (.reject _ _) (.pure rfl)

/-- An expression is read as a statement in one way only. -/
theorem expressionStatement_of_statementRule (h : g.statementRule c s = .ok n t)
    (hn : n.isExprStmt) : g.expressionStatement c s = .ok n t := by
  -- every other statement contradicts `hn`
  have never : ∀ {p : Parser Node}, p.NeverExprStmt → p c s = .ok n t →
      g.expressionStatement c s = .ok n t := by
    intro p hp h
    rw [hp.of_ok h] at hn
    cases hn
  obtain ⟨kind, u, hkind, h⟩ := bind_eq_ok.1 h
  obtain rfl : s = u := (declarationKind?_eq_ok hkind).1
  cases kind with
  | some kind => exact never (varStatement_neverExprStmt kind) h
  | none =>
    have hother (h : g.otherStatement c s = .ok n t) : g.expressionStatement c s = .ok n t := by
      simp only [otherStatement, bind_eq_ok, ite_eq_ok] at h
      obtain ⟨b, v, hv, ⟨-, _, u, -, h⟩ | ⟨-, h⟩⟩ := h
      · rw [(function_neverExprStmt _ _).of_ok h] at hn
        cases hn
      · obtain ⟨rfl, -⟩ := isAsyncFunction_eq_ok hv
        exact h
    simp only [simpleStatement, bind_eq_ok, peek_eq_ok] at h
    obtain ⟨_, _, ⟨rfl, rfl⟩, h⟩ := h
    cases hk : (c.next s).kind <;> simp only [hk] at h
    case punct p =>
      cases p
      case lbrace => exact never block_neverExprStmt h
      case semicolon => exact never (.bind fun _ => .pure rfl) h
      all_goals exact hother h
    case keyword k =>
      cases k
      case function_ => exact never (function_neverExprStmt _ _) h
      case class_ => exact never (class_neverExprStmt _) h
      case return_ => exact never returnStatement_neverExprStmt h
      case if_ => exact never ifStatement_neverExprStmt h
      case while_ => exact never whileStatement_neverExprStmt h
      case do_ => exact never doWhileStatement_neverExprStmt h
      case for_ => exact never forStatement_neverExprStmt h
      case switch_ => exact never switchStatement_neverExprStmt h
      case try_ => exact never tryStatement_neverExprStmt h
      case throw_ => exact never throwStatement_neverExprStmt h
      case break_ | continue_ | debugger_ =>
        exact never (wordStatement_neverExprStmt fun _ => rfl) h
      case import_ | export_ | with_ => exact (reject_eq_ok.1 h).elim
      all_goals exact hother h
    all_goals exact hother h

/-- A statement of the form is read by reading its expression and the end of a statement. -/
theorem expression_of_statement {k : Nat} {pos : Position}
    (h : (level (k + 1)).statement c s = .ok ⟨.exprStmt e, pos⟩ t) :
    ∃ u, (level (k + 1)).expression c s = .ok e u ∧ semicolon c u = .ok () t := by
  have hstatement := expressionStatement_of_statementRule h rfl
  simp only [expressionStatement, bind_eq_ok, peek_eq_ok, pure_eq_ok] at hstatement
  obtain ⟨_, _, ⟨rfl, rfl⟩, x, u, hx, _, _, hsemicolon, hnode, rfl⟩ := hstatement
  obtain ⟨hshape, -⟩ := Node.mk.inj hnode
  cases hshape
  exact ⟨u, hx, hsemicolon⟩

/-! A parenthesis that nothing stands behind. -/

theorem subscript_end (hend : (c.next t).kind = .eof) (calls : Bool) (base : Node) :
    g.subscript calls base c t = .ok none t := by
  simp [subscript, hend]

theorem postfixUpdate_end (hend : (c.next t).kind = .eof) (operand : Node) :
    postfixUpdate operand c t = .ok none t := by
  have hop : UpdateOp.ofKind? (c.next t).kind = none := by rw [hend]; rfl
  simp [postfixUpdate, hop]

theorem extend_stop {α : Type} {step : α → Parser (Option α)} {turns : Nat} {a : α}
    (hturns : 0 < turns) (hstep : step a c t = .ok none t) :
    Parser.extend step turns a c t = .ok a t := by
  obtain ⟨turns, rfl⟩ := Nat.exists_eq_add_one_of_ne_zero (Nat.ne_of_gt hturns)
  exact bind_eq_ok.2 ⟨none, t, hstep, rfl⟩

/-- What stands in parentheses up to the end of input is the whole expression. -/
theorem expressionRule_of_paren (hturns : 0 < g.turns) (hopen : (c.next s).kind = .punct .lparen)
    (hparen : g.parenExpression c s = .ok e t) (hend : (c.next t).kind = .eof) :
    g.expressionRule c s = .ok e t := by
  have hatom : g.atomRule c s = .ok e t := by simpa [atomRule, hopen] using hparen
  have hsubscripted : g.subscriptedRule c s = .ok e t := by
    refine bind_eq_ok.2 ⟨e, t, hatom, ?_⟩
    by_cases harrow : e.isArrow = true
    · simp [harrow]
    · simpa [harrow, subscripts] using extend_stop hturns (subscript_end hend true e)
  have hunary : g.unaryRule c s = .ok e t := by
    have hop : UnaryOp.ofKind? (c.next s).kind = none := by rw [hopen]; rfl
    have hupdate : UpdateOp.ofKind? (c.next s).kind = none := by rw [hopen]; rfl
    simp only [unaryRule, bind_eq_ok, peek_eq_ok, context_eq_ok]
    refine ⟨_, s, ⟨rfl, rfl⟩, _, s, ⟨rfl, rfl⟩, ?_⟩
    rw [if_neg (by simp [hopen]), hop, hupdate]
    exact bind_eq_ok.2 ⟨e, t, hsubscripted, extend_stop hturns (postfixUpdate_end hend e)⟩
  have hbinary : g.binaryRule c s = .ok e t := by
    obtain ⟨turns, hsucc⟩ := Nat.exists_eq_add_one_of_ne_zero (Nat.ne_of_gt hturns)
    have hop : BinaryOp.ofKind? (c.next t).kind = none := by rw [hend]; rfl
    refine bind_eq_ok.2 ⟨e, t, hunary, ?_⟩
    rw [hsucc]
    exact climb_stop (by simp [hop])
  have hconditional : g.conditionalRule c s = .ok e t := by
    refine bind_eq_ok.2 ⟨e, t, hbinary, ?_⟩
    exact bind_eq_ok.2 ⟨false, t, accept_eq_ok.2 (Or.inr ⟨by simp [hend], rfl, rfl⟩), rfl⟩
  have hassignment : g.assignmentRule c s = .ok e t := by
    have hop : AssignOp.ofKind? (c.next t).kind = none := by rw [hend]; rfl
    simp [assignmentRule, hopen, hconditional, hop]
  simp [expressionRule, commaExpression, hassignment, hend]

/-- An expression that nothing stands behind is a statement. -/
theorem statementRule_of_paren (hopen : (c.next s).kind = .punct .lparen)
    (hexpression : g.expressionRule c s = .ok e t) (hend : (c.next t).kind = .eof) :
    g.statementRule c s = .ok ((c.next s).node (.exprStmt e)) t := by
  have hsemicolon : semicolon c t = .ok () t :=
    Sequel.Runs.semicolon_eq_ok.2 (Or.inr ⟨by simp [hend], by simp [hend], rfl⟩)
  simp [statementRule, declarationKind?, simpleStatement, otherStatement, isAsyncFunction,
    expressionStatement, hopen, hexpression, hsemicolon]

/-! Expressions between parentheses. -/

/-- The brackets of an expression are properly nested. -/
theorem expression_nested {k : Nat} (hc : c.finish.kind = .eof)
    (h : (level k).expression c s = .ok e t) :
    ∃ taken, s.pending = taken ++ t.pending ∧ Nested taken := by
  have hcloses : (level k).expression.Closes .anywhere [] := expression_nests (level_nests k)
  obtain ⟨taken, htaken, hnest⟩ := hcloses hc trivial h
  exact ⟨taken, htaken, nested_iff_nest.2 hnest⟩

/-- The end of input behind a closing parenthesis, where there was the end of input alone. -/
def shut (closing finish : Token) (h : closing.kind = .punct .rparen) : Endings where
  first := []
  second := [closing]
  finish := finish
  first_ends := nofun
  second_ends := by simp [h, Kind.EndsExpression]

/-- An expression that ends at the end of input ends at a closing parenthesis as well. -/
theorem expression_before_paren {k : Nat} {closing finish : Token}
    (hclosing : closing.kind = .punct .rparen) (hc : c.finish.kind = .eof)
    (h : (level k).expression c s = .ok e t) (ht : t.pending = []) :
    (level k).expression { c with finish } { s with pending := s.pending ++ [closing] } =
      .ok e { t with pending := [closing] } := by
  let q := shut closing finish hclosing
  have hrun := (Endings.expression (Endings.Keeps.level q k) (S := .anywhere) hc trivial h).resumes
    (Endings.left_iff.2 ⟨[], by simp [ht, q, shut], Nat.zero_le _⟩)
  have hstate (r : State) : q.state r = { r with pending := r.pending ++ [closing] } :=
    Endings.state_eq r.pending (by simp [q, shut])
  rw [hstate, hstate, ht, List.nil_append] at hrun
  exact hrun

/-- More levels and more turns read the same expression. -/
theorem expression_deeper {k m turns : Nat} (hk : k ≤ m) (hturns : k ≤ turns)
    (hc : c.finish.kind = .eof) (h : (level k).expression c s = .ok e t) :
    { level m with turns }.expression c s = .ok e t := by
  let q := Sequel.alone c.finish [] hc
  have hg : q.Grammars (level k) { level m with turns } :=
    (Sequel.Grammars.level hk).withTurns (by rwa [level_turns])
  obtain ⟨u, hu, ⟨⟩ | ⟨⟨⟩⟩⟩ := (Sequel.expression hg (S := .anywhere) hc trivial h).resumes
    (Nat.zero_le _)
  have hstate (r : State) : q.state r = r := by simp [q, Sequel.state, Sequel.alone]
  rw [hstate, hstate] at hu
  exact hu

/-- An expression up to the end of input is read between parentheses as well. The look ahead finds
no arrow, since its parenthesis is closed by the last token. -/
theorem parenExpression_of_expression {k m turns : Nat} {opening closing finish : Token}
    (hk : k ≤ m) (hturns : k ≤ turns) (hopening : opening.kind = .punct .lparen)
    (hclosing : closing.kind = .punct .rparen) (hfinish : finish.kind = .eof)
    (hc : c.finish.kind = .eof) (h : (level k).expression c s = .ok e t) (ht : t.pending = []) :
    { level m with turns }.parenExpression { c with finish }
      { s with pending := opening :: (s.pending ++ [closing]) } = .ok e t := by
  let c' : Context := { c with finish }
  let s' : State := { s with pending := opening :: (s.pending ++ [closing]) }
  obtain ⟨taken, htaken, hnested⟩ := expression_nested hc h
  obtain rfl : s.pending = taken := by rw [htaken, ht, List.append_nil]
  have harrow : isArrowParams c' s' = .ok false s' := by
    have hcloser : opening.kind.closer? = some .rparen := by rw [hopening]; rfl
    rw [isArrowParams_eq, afterPartner_nested hcloser hclosing hnested]
    simp [Token.isArrow, c', hfinish]
  have hopen : expect .lparen c' s' = .ok opening s'.skip :=
    expect_eq_ok.2 ⟨hopening, rfl, rfl⟩
  have hinner : { level m with turns }.expression c' s'.skip =
      .ok e { t with pending := [closing] } :=
    expression_deeper hk hturns hfinish (expression_before_paren hclosing hc h ht)
  have hclose : expect .rparen c' { t with pending := [closing] } = .ok closing t :=
    expect_eq_ok.2 ⟨hclosing, rfl, by rw [State.skip, List.tail_cons, ← ht]⟩
  exact bind_eq_ok.2 ⟨opening, s', rfl, bind_eq_ok.2 ⟨false, s', harrow,
    bind_eq_ok.2 ⟨opening, _, hopen, bind_eq_ok.2 ⟨e, _, hinner,
      bind_eq_ok.2 ⟨closing, _, hclose, rfl⟩⟩⟩⟩⟩

end Grammar

namespace TokenStream

variable {ts : TokenStream} {d : Dialect} {options : Options} {p : Parsed} {pos : Position}

/-- A program that is one expression as a statement, without a semicolon behind it, is read by
reading the expression. -/
theorem expression_of_parse (hts : ts.IsClosed) (h : ts.parse d options = .ok p)
    (hbody : p.program.body = [⟨.exprStmt e, pos⟩])
    (hlast : ∀ z ∈ ts.tokens.getLast?, z.kind ≠ .punct .semicolon) :
    ∃ t, (Grammar.level (ts.tokens.length + 1)).expression (.initial d options ts.finish)
        ⟨ts.tokens, [], .empty⟩ = .ok e t ∧
      t.pending = [] ∧ t.reported = p.reported := by
  obtain ⟨body, t, hstatements, rfl⟩ := parse_eq_ok.1 h
  obtain rfl : body = [⟨.exprStmt e, pos⟩] := hbody
  obtain ⟨hreads, hpending, -⟩ := readsAll hts hstatements
  cases hreads with | cons _ hread hrest =>
  cases hrest
  obtain ⟨u, he, hsemicolon⟩ := Grammar.expression_of_statement hread
  let c : Context := .initial d options ts.finish
  obtain ⟨hk, rfl⟩ | ⟨-, -, rfl⟩ := Sequel.Runs.semicolon_eq_ok.1 hsemicolon
  · -- a semicolon that was taken is the last token
    obtain ⟨taken, htaken, -⟩ := Grammar.expression_nested hts.finish he
    have htaken : ts.tokens = taken ++ u.pending := htaken
    have hsemicolon : u.pending = [c.next u] :=
      (Context.pending_eq (c := c) hts.finish (by simp [c, hk])).trans (congrArg _ hpending)
    refine absurd hk (hlast _ ?_)
    rw [htaken, hsemicolon, List.getLast?_append, List.getLast?_singleton]
    rfl
  · exact ⟨u, he, hpending, rfl⟩

end TokenStream

/-- Parentheses around a whole expression are transparent: where a program is one expression that is
a statement, without a semicolon behind it, the expression in parentheses is a program too. Its only
statement has the same expression, with the same places, and the same problems are recorded. -/
theorem parentheses_transparent (d : Dialect) (options : Options) (ts : TokenStream)
    (hts : ts.IsClosed) (opening closing finish : Token) (hopening : opening.kind = .punct .lparen)
    (hclosing : closing.kind = .punct .rparen) (hfinish : finish.kind = .eof) (p : Parsed)
    (h : ts.parse d options = .ok p) (e : Node) (pos : Position)
    (hbody : p.program.body = [⟨.exprStmt e, pos⟩])
    (hlast : ∀ z ∈ ts.tokens.getLast?, z.kind ≠ .punct .semicolon) :
    TokenStream.parse d options ⟨opening :: (ts.tokens ++ [closing]), finish⟩ =
      .ok ⟨⟨[opening.node (.exprStmt e)], options.sourceType⟩, p.reported⟩ := by
  obtain ⟨t, he, ht, hreported⟩ := TokenStream.expression_of_parse hts h hbody hlast
  let c : Context := .initial d options finish
  let s : State := ⟨opening :: (ts.tokens ++ [closing]), [], .empty⟩
  have hopen : (c.next s).kind = .punct .lparen := hopening
  have hend : (c.next t).kind = .eof := by
    rw [Context.next, ht]
    exact hfinish
  -- the statement of the longer program is read one level deeper
  have hturns : ts.tokens.length + 1 ≤ (Grammar.level (ts.tokens.length + 2)).turns + 1 := by
    rw [Grammar.level_turns]
    omega
  have hparen := Grammar.parenExpression_of_expression (Nat.le_succ _) hturns hopening hclosing
    hfinish hts.finish he ht
  have hread : (Grammar.level (ts.tokens.length + 3)).statement c s =
      .ok (opening.node (.exprStmt e)) t :=
    Grammar.statementRule_of_paren hopen
      (Grammar.expressionRule_of_paren (Nat.succ_pos _) hopen hparen hend) hend
  rw [← hreported]
  refine TokenStream.parse_of_readsAll hfinish ?_ ht
  have hlength : (opening :: (ts.tokens ++ [closing])).length + 1 = ts.tokens.length + 3 := by simp
  rw [hlength]
  exact .cons (by rw [hopen]; exact Kind.noConfusion) hread .nil

/-- A sequence of an assignment, whose class has a problem of its own, and an arrow function behind
a line break. -/
def sequenceText : String :=
  "a.b ??= class extends c { #d; get e(f) { return delete this.#d.g } },\n (...h) => [h]"

theorem sequenceText_in_parentheses : ∃ ts p e pos, tokenize .withPrivate sequenceText = .ok ts ∧
    ts.IsClosed ∧ ts.parse .withPrivate .default = .ok p ∧ p.reported.length = 1 ∧
    p.program.body = [⟨.exprStmt e, pos⟩] ∧
    (∀ z ∈ ts.tokens.getLast?, z.kind ≠ .punct .semicolon) ∧
    TokenStream.parse .withPrivate .default ⟨⟨.punct .lparen, .start, false⟩ ::
        (ts.tokens ++ [⟨.punct .rparen, .start, true⟩]), ⟨.eof, .start, false⟩⟩ =
      .ok ⟨⟨[(⟨.punct .lparen, .start, false⟩ : Token).node (.exprStmt e)], .script⟩,
        p.reported⟩ := by
  obtain ⟨ts, p, hts, hclosed, hp, hcount⟩ := exists_of_read sequenceText 1 (by decide +kernel)
  have hread : ((tokenize .withPrivate sequenceText).toOption.bind fun ts =>
      (ts.parse .withPrivate .default).toOption.map fun p =>
        (ts.tokens.getLast?.all (·.kind != .punct .semicolon)) &&
          (p.program.body.map Node.isExprStmt == [true])) = some true := by
    decide +kernel
  simp only [hts, hp, Except.toOption, Option.bind_some, Option.map_some, Option.some.injEq,
    Bool.and_eq_true, Option.all_eq_true, bne_iff_ne, beq_iff_eq] at hread
  obtain ⟨hlast, hform⟩ := hread
  obtain ⟨n, hbody, hn⟩ := List.map_eq_singleton_iff.1 hform
  obtain ⟨e, pos, rfl⟩ := n.exists_of_isExprStmt hn
  exact ⟨ts, p, e, pos, hts, hclosed, hp, hcount, hbody, hlast,
    parentheses_transparent .withPrivate .default ts hclosed _ _ _ rfl rfl rfl p hp e pos hbody
      hlast⟩

end JsClass
