import JsClass.Proofs.StatementComposition
import JsClass.Proofs.TokenCover
import JsClass.Proofs.Writing.Expressions

/-!
What the rules for statements write. The rules of every level are faithful, by induction over the
levels, and so the tokens of a program are written into its statements.
-/
namespace JsClass.Grammar

open JsClass.Parser

variable {g : Grammar} {c : Context} {r r₀ s t : State} {n : Node} {x : Token}

/-! Declarations of variables. -/

/-- A declaration begins with a keyword or with `let`. -/
theorem declarationKind?_dispensable {kind : VarKind}
    (h : declarationKind? c s = .ok (some kind) t) : (c.next s).kind.isDispensable = true := by
  simp only [declarationKind?, bind_eq_ok, peek_eq_ok] at h
  obtain ⟨_, _, ⟨rfl, rfl⟩, h⟩ := h
  cases hk : (c.next s).kind
  case name word =>
    by_cases hw : word = "let"
    · subst hw
      rfl
    · simp [hk, hw] at h
  case keyword | punct => rfl
  all_goals simp [hk] at h

/-- Behind the name there is `in` or `of`. -/
theorem startsForIn_dispensable {offset : Nat} (h : startsForIn offset c s = .ok true t) :
    ((s.pending.drop (offset + 1)).headD c.finish).kind.isDispensable = true := by
  simp only [startsForIn, bind_eq_ok, peekAt_eq_ok, pure_eq_ok, Bool.and_eq_true, Bool.or_eq_true,
    beq_iff_eq] at h
  obtain ⟨_, _, ⟨-, rfl⟩, _, _, ⟨rfl, rfl⟩, ⟨-, hk | hk⟩, rfl⟩ := h
  · rw [hk]
    rfl
  · rw [hk]
    rfl

theorem declarator_writes (hg : g.Faithful) {kind : VarKind}
    (h : g.declarator kind c s = .ok n t) : c.Writes s [n] t := by
  simp only [declarator, bind_eq_ok, peek_eq_ok, ite_eq_ok, reject_eq_ok, exists_false, and_false,
    false_or] at h
  obtain ⟨i, u, hu, -, init, v, hv, h⟩ := h
  have hparts := (ident_writes hu).trans (initializer?_writes hg hv)
  cases init with
  | some x =>
    simp only [pure_eq_ok] at h
    obtain ⟨rfl, rfl⟩ := h
    exact hparts.wrap rfl rfl rfl
  | none =>
    simp only [ite_eq_ok, bind_eq_ok, reject_eq_ok, pure_eq_ok, exists_false, and_false,
      false_or] at h
    obtain ⟨-, rfl, rfl⟩ := h
    exact hparts.wrap rfl rfl rfl

theorem varDecl_writes (hg : g.Faithful) {kind : VarKind}
    (hk : (c.next s).kind.isDispensable = true) (h : g.varDecl kind c s = .ok n t) :
    c.Writes s [n] t := by
  simp only [varDecl, bind_eq_ok, pure_eq_ok] at h
  obtain ⟨_, u, hu, ns, v, hv, rfl, rfl⟩ := h
  have hns : c.Writes u ns v := by
    rw [← List.flatMap_singleton' ns]
    refine collectFrom_writes ?_ hv
    intro _ s r t hr
    simp only [bind_eq_ok, ite_eq_ok, pure_eq_ok] at hr
    obtain ⟨d, u, hd, _, v, hv, ⟨-, rfl, rfl⟩ | ⟨-, rfl, rfl⟩⟩ := hr
    · exact (declarator_writes hg hd).trans (accept_writes hv)
    · exact (declarator_writes hg hd).trans (accept_writes hv)
  exact (advance_takes hk hu).node hns.done rfl rfl

theorem varStatement_writes (hg : g.Faithful) {kind : VarKind}
    (hk : (c.next s).kind.isDispensable = true) (h : g.varStatement kind c s = .ok n t) :
    c.Writes s [n] t := by
  simp only [varStatement, bind_eq_ok, pure_eq_ok] at h
  obtain ⟨d, u, hu, _, v, hv, rfl, rfl⟩ := h
  exact (varDecl_writes hg hk hu).trans (semicolon_writes hv)

/-! Conditionals and loops. -/

theorem returnStatement_writes (hg : g.Faithful) (h : g.returnStatement c s = .ok n t) :
    c.Writes s [n] t := by
  simp only [returnStatement, bind_eq_ok, context_eq_ok, ite_eq_ok, reject_eq_ok, check_eq_ok,
    canInsertSemicolon_eq_ok, pure_eq_ok, and_false, false_or] at h
  obtain ⟨_, u, hu, _, _, ⟨rfl, rfl⟩, -, _, _, ⟨-, rfl⟩, _, _, ⟨-, rfl⟩,
    ⟨-, _, v, hv, rfl, rfl⟩ | ⟨-, x, v, hv, _, w, hw, rfl, rfl⟩⟩ := h
  · exact (expectKeyword_takes hu).node (semicolon_writes hv) rfl rfl
  · exact (expectKeyword_takes hu).node
      ((expression_writes hg hv).trans (semicolon_writes hw)) rfl rfl

theorem ifStatement_writes (hg : g.Faithful) (h : g.ifStatement c s = .ok n t) :
    c.Writes s [n] t := by
  simp only [ifStatement, bind_eq_ok, ite_eq_ok, pure_eq_ok] at h
  obtain ⟨_, u, hu, x, v, hv, y, w, hw, _, a, ha, h⟩ := h
  have hparts := (parenthesized_writes hg hv).trans
    ((hg.statement hw).trans (acceptKeyword_writes ha))
  obtain ⟨-, z, b, hb, rfl, rfl⟩ | ⟨-, rfl, rfl⟩ := h
  · exact (expectKeyword_takes hu).node (hparts.trans (hg.statement hb)) rfl rfl
  · exact (expectKeyword_takes hu).node hparts rfl rfl

theorem whileStatement_writes (hg : g.Faithful) (h : g.whileStatement c s = .ok n t) :
    c.Writes s [n] t := by
  simp only [whileStatement, bind_eq_ok, pure_eq_ok] at h
  obtain ⟨_, u, hu, x, v, hv, y, w, hw, rfl, rfl⟩ := h
  exact (expectKeyword_takes hu).node
    ((parenthesized_writes hg hv).trans (hg.statement hw)) rfl rfl

theorem doWhileStatement_writes (hg : g.Faithful) (h : g.doWhileStatement c s = .ok n t) :
    c.Writes s [n] t := by
  simp only [doWhileStatement, bind_eq_ok, pure_eq_ok] at h
  obtain ⟨_, u, hu, x, v, hv, _, w, hw, y, a, ha, _, b, hb, rfl, rfl⟩ := h
  exact (expectKeyword_takes hu).node ((hg.statement hv).trans
    ((expectKeyword_takes hw).writes.trans ((parenthesized_writes hg ha).trans
      (accept_writes hb)))) rfl rfl

/-- The loop begins with the token `x`, which was taken before its left side. -/
theorem forInRest_writes (hg : g.Faithful) {left : Node} (hx : c.Takes r₀ x r)
    (hl : c.Writes r [left] s) (hk : (c.next s).kind.isDispensable = true)
    (h : g.forInRest x left c s = .ok n t) : c.Writes r₀ [n] t := by
  simp only [forInRest, bind_eq_ok, ite_eq_ok, pure_eq_ok] at h
  obtain ⟨b, u, hu, ⟨-, y, v, hv, _, w, hw, z, a, ha, rfl, rfl⟩ |
    ⟨hb, _, u', hu', y, v, hv, _, w, hw, z, a, ha, rfl, rfl⟩⟩ := h
  · exact hx.node (hl.trans ((acceptKeyword_writes hu).trans ((expression_writes hg hv).trans
      ((expect_writes hw).trans (hg.statement ha))))) rfl rfl
  · obtain rfl : s = u := by
      rcases acceptKeyword_eq_ok.1 hu with ⟨-, rfl, -⟩ | ⟨-, -, hs⟩
      · exact absurd rfl hb
      · exact hs
    exact hx.node (hl.trans ((advance_writes hk hu').trans ((hg.assignment hv).trans
      ((expect_writes hw).trans (hg.statement ha))))) rfl rfl

theorem optionalBefore_writes (hg : g.Faithful) {close : Punct} {part : Option Node}
    (h : g.optionalBefore close c s = .ok part t) : c.Writes s part.toList t := by
  simp only [optionalBefore, bind_eq_ok, check_eq_ok, ite_eq_ok, pure_eq_ok] at h
  obtain ⟨_, _, ⟨-, rfl⟩, ⟨-, rfl, rfl⟩ | ⟨-, x, u, hu, rfl, rfl⟩⟩ := h
  · exact .rfl'
  · exact expression_writes hg hu

theorem forRest_writes (hg : g.Faithful) {init : Option Node} (hx : c.Takes r₀ x r)
    (hi : c.Writes r init.toList s) (h : g.forRest x init c s = .ok n t) : c.Writes r₀ [n] t := by
  simp only [forRest, bind_eq_ok, pure_eq_ok] at h
  obtain ⟨_, u, hu, condition, v, hv, _, w, hw, step, a, ha, _, b, hb, body, d, hd, rfl, rfl⟩ := h
  exact hx.node (hi.trans ((expect_writes hu).trans ((optionalBefore_writes hg hv).trans
    ((expect_writes hw).trans ((optionalBefore_writes hg ha).trans ((expect_writes hb).trans
      (hg.statement hd))))))) rfl rfl

theorem forStatement_writes (hg : g.Faithful) (h : g.forStatement c s = .ok n t) :
    c.Writes s [n] t := by
  simp only [forStatement, bind_eq_ok] at h
  obtain ⟨x, u, hu, _, v, hv, kind, w, hkind, h⟩ := h
  have hx := expectKeyword_takes hu
  obtain ⟨rfl, -⟩ := declarationKind?_eq_ok hkind
  cases kind with
  | some kind =>
    have hk := declarationKind?_dispensable hkind
    simp only [bind_eq_ok, ite_eq_ok] at h
    obtain ⟨b, w, hw, h⟩ := h
    obtain ⟨rfl, -⟩ := startsForIn_eq_ok hw
    obtain ⟨rfl, keyword, a, ha, name, b, hname, h⟩ | ⟨-, d, a, ha, h⟩ := h
    · have hdeclarator : c.Writes a [⟨.declarator name.node none, name.pos⟩] b :=
        (ident_writes hname).wrap rfl rfl rfl
      have hleft : c.Writes v
          [keyword.node (.varDecl kind [⟨.declarator name.node none, name.pos⟩])] b :=
        (advance_takes hk ha).node hdeclarator rfl rfl
      refine forInRest_writes hg hx ((expect_writes hv).trans hleft) ?_ h
      obtain ⟨-, rfl⟩ := advance_eq_ok.1 ha
      rw [Context.next, ident_pending hname]
      simpa [State.skip] using startsForIn_dispensable hw
    · have hd : c.Writes u (some d).toList a :=
        (expect_writes hv).trans (varDecl_writes hg hk ha)
      exact forRest_writes hg hx hd h
  | none =>
    simp only [bind_eq_ok, ite_eq_ok] at h
    obtain ⟨b, w, hw, h⟩ := h
    obtain ⟨rfl, -⟩ := startsForIn_eq_ok hw
    obtain ⟨rfl, name, a, ha, h⟩ | ⟨-, init, a, ha, h⟩ := h
    · refine forInRest_writes hg hx ((expect_writes hv).trans (ident_writes ha)) ?_ h
      rw [Context.next, ident_pending ha]
      exact startsForIn_dispensable hw
    · exact forRest_writes hg hx ((expect_writes hv).trans (optionalBefore_writes hg ha)) h

/-! Switches and handlers. -/

theorem caseRest_writes (hg : g.Faithful) {test : Option Node} (hx : c.Takes r₀ x r)
    (ht : c.Writes r test.toList s) (h : g.caseRest x test c s = .ok n t) :
    c.Writes r₀ [n] t := by
  simp only [caseRest, bind_eq_ok, pure_eq_ok] at h
  obtain ⟨_, u, hu, ns, v, hv, rfl, rfl⟩ := h
  exact hx.node (ht.trans ((expect_writes hu).trans (statementsUntil_writes hg hv).done)) rfl rfl

theorem switchCases_writes (hg : g.Faithful) {ns : List Node} (h : g.switchCases c s = .ok ns t) :
    c.Writes s ns t := by
  rw [← List.flatMap_singleton' ns]
  refine collectFrom_writes ?_ h
  intro hasDefault s r t hr
  simp only [bind_eq_ok, peek_eq_ok] at hr
  obtain ⟨_, _, ⟨rfl, rfl⟩, hr⟩ := hr
  have hstop : (pure (.stop []) : Parser (Turn Bool Node)) c s = .ok r t →
      c.Writes s (r.items.flatMap fun n => [n]) t := by
    intro h
    obtain ⟨rfl, rfl⟩ := pure_eq_ok.1 h
    exact .rfl'
  cases hk : (c.next s).kind <;> simp only [hk, unexpected_eq_ok] at hr
  case eof => exact hstop hr
  case punct p =>
    cases p <;> simp only [unexpected_eq_ok] at hr
    exact hstop hr
  case keyword k =>
    have htakes {x : Token} {u : State} (hu : advance c s = .ok x u) : c.Takes s (c.next s) u :=
      ⟨rfl, (advance_eq_ok.1 hu).2, by rw [hk]; rfl⟩
    cases k <;> simp only [unexpected_eq_ok] at hr
    case case_ =>
      simp only [bind_eq_ok, pure_eq_ok] at hr
      obtain ⟨_, u, hu, test, v, hv, x, w, hw, rfl, rfl⟩ := hr
      have htest : c.Writes u (some test).toList v := expression_writes hg hv
      exact caseRest_writes hg (htakes hu) htest hw
    case default_ =>
      simp only [bind_eq_ok, ite_eq_ok, reject_eq_ok, pure_eq_ok, and_false, false_or] at hr
      obtain ⟨_, u, hu, -, x, w, hw, rfl, rfl⟩ := hr
      have htest : c.Writes u (none : Option Node).toList u := .rfl'
      exact caseRest_writes hg (htakes hu) htest hw

theorem switchStatement_writes (hg : g.Faithful) (h : g.switchStatement c s = .ok n t) :
    c.Writes s [n] t := by
  simp only [switchStatement, bind_eq_ok, pure_eq_ok] at h
  obtain ⟨_, u, hu, x, v, hv, _, w, hw, ns, a, ha, _, b, hb, rfl, rfl⟩ := h
  exact (expectKeyword_takes hu).node ((parenthesized_writes hg hv).trans ((expect_writes hw).trans
    ((switchCases_writes hg ha).trans (expect_writes hb)))) rfl rfl

theorem wordStatement_writes {shape : Shape Node} (hk : (c.next s).kind.isDispensable = true)
    (hchildren : shape.children = []) (hplain : ∀ x : Token, (x.node shape).isPlain = true)
    (h : wordStatement shape c s = .ok n t) : c.Writes s [n] t := by
  simp only [wordStatement, bind_eq_ok, pure_eq_ok] at h
  obtain ⟨x, u, hu, _, v, hv, rfl, rfl⟩ := h
  have hrest := semicolon_writes hv
  rw [← hchildren] at hrest
  have hquiet := Node.quiet_of_children (n := x.node shape) hchildren
  exact (advance_takes hk hu).node hrest (hplain x) hquiet.2

theorem throwStatement_writes (hg : g.Faithful) (h : g.throwStatement c s = .ok n t) :
    c.Writes s [n] t := by
  simp only [throwStatement, bind_eq_ok, peek_eq_ok, ite_eq_ok, reject_eq_ok, pure_eq_ok, and_false,
    false_or] at h
  obtain ⟨_, u, hu, _, _, ⟨rfl, rfl⟩, -, x, v, hv, _, w, hw, rfl, rfl⟩ := h
  exact (expectKeyword_takes hu).node
    ((expression_writes hg hv).trans (semicolon_writes hw)) rfl rfl

theorem catchParam?_writes {param : Option Node} (h : catchParam? c s = .ok param t) :
    c.Writes s param.toList t := by
  simp only [catchParam?, bind_eq_ok, ite_eq_ok, pure_eq_ok] at h
  obtain ⟨_, u, hu, ⟨-, i, v, hv, _, w, hw, rfl, rfl⟩ | ⟨-, rfl, rfl⟩⟩ := h
  · exact (accept_writes hu).trans ((ident_writes hv).trans (expect_writes hw))
  · exact accept_writes hu

theorem handler?_writes (hg : g.Faithful) {param handler : Option Node}
    (h : g.handler? c s = .ok (param, handler) t) :
    c.Writes s (param.toList ++ handler.toList) t := by
  simp only [handler?, bind_eq_ok, ite_eq_ok, pure_eq_ok, Prod.mk.injEq] at h
  obtain ⟨_, u, hu, ⟨-, x, v, hv, y, w, hw, ⟨rfl, rfl⟩, rfl⟩ | ⟨-, ⟨rfl, rfl⟩, rfl⟩⟩ := h
  · exact (acceptKeyword_writes hu).trans ((catchParam?_writes hv).trans (block_writes hg hw))
  · exact acceptKeyword_writes hu

theorem finalizer?_writes (hg : g.Faithful) {finalizer : Option Node}
    (h : g.finalizer? c s = .ok finalizer t) : c.Writes s finalizer.toList t := by
  simp only [finalizer?, bind_eq_ok, ite_eq_ok, pure_eq_ok] at h
  obtain ⟨_, u, hu, ⟨-, x, v, hv, rfl, rfl⟩ | ⟨-, rfl, rfl⟩⟩ := h
  · exact (acceptKeyword_writes hu).trans (block_writes hg hv)
  · exact acceptKeyword_writes hu

theorem tryStatement_writes (hg : g.Faithful) (h : g.tryStatement c s = .ok n t) :
    c.Writes s [n] t := by
  simp only [tryStatement, bind_eq_ok, ite_eq_ok, reject_eq_ok, pure_eq_ok, and_false,
    false_or] at h
  obtain ⟨_, u, hu, b, v, hv, ⟨param, handler⟩, w, hw, finalizer, a, ha, -, rfl, rfl⟩ := h
  have hhandler := (handler?_writes hg hw).trans (finalizer?_writes hg ha).done
  rw [List.append_assoc] at hhandler
  exact (expectKeyword_takes hu).node ((block_writes hg hv).trans hhandler) rfl rfl

/-! All statements. -/

/-- A statement begins with its first token, which may be a parenthesis that is dropped. -/
theorem expressionStatement_writes (hg : g.Faithful) (h : g.expressionStatement c s = .ok n t) :
    c.Writes s [n] t := by
  simp only [expressionStatement, bind_eq_ok, peek_eq_ok, pure_eq_ok] at h
  obtain ⟨_, _, ⟨rfl, rfl⟩, e, u, hu, _, v, hv, rfl, rfl⟩ := h
  have hparts := (expressionRule_writes hg hu).trans (semicolon_writes hv)
  exact hparts.around (List.cons_ne_nil _ _) rfl rfl rfl rfl

theorem otherStatement_writes (hg : g.Faithful) (h : g.otherStatement c s = .ok n t) :
    c.Writes s [n] t := by
  simp only [otherStatement, bind_eq_ok, ite_eq_ok] at h
  obtain ⟨b, v, hv, ⟨hb, _, u, hu, h⟩ | ⟨-, h⟩⟩ := h
  · exact asyncFunction_writes hg hv hb hu h
  · obtain ⟨rfl, -⟩ := isAsyncFunction_eq_ok hv
    exact expressionStatement_writes hg h

theorem simpleStatement_writes (hg : g.Faithful) (h : g.simpleStatement c s = .ok n t) :
    c.Writes s [n] t := by
  simp only [simpleStatement, bind_eq_ok, peek_eq_ok] at h
  obtain ⟨_, _, ⟨rfl, rfl⟩, h⟩ := h
  cases hk : (c.next s).kind <;> simp only [hk] at h
  case punct p =>
    cases p
    case lbrace => exact block_writes hg h
    case semicolon =>
      simp only [bind_eq_ok, advance_eq_ok, pure_eq_ok] at h
      obtain ⟨_, _, ⟨rfl, rfl⟩, rfl, rfl⟩ := h
      have htakes : c.Takes s (c.next s) s.skip := ⟨rfl, rfl, by rw [hk]; rfl⟩
      exact htakes.node .rfl' rfl rfl
    all_goals exact otherStatement_writes hg h
  case keyword k =>
    cases k
    case function_ => exact function_writes hg h
    case class_ => exact class_writes hg h
    case return_ => exact returnStatement_writes hg h
    case if_ => exact ifStatement_writes hg h
    case while_ => exact whileStatement_writes hg h
    case do_ => exact doWhileStatement_writes hg h
    case for_ => exact forStatement_writes hg h
    case switch_ => exact switchStatement_writes hg h
    case try_ => exact tryStatement_writes hg h
    case throw_ => exact throwStatement_writes hg h
    case break_ | continue_ | debugger_ =>
      refine wordStatement_writes (by rw [hk]; rfl) ?_ ?_ h
      · rfl
      · exact fun _ => rfl
    case import_ | export_ | with_ => simp at h
    all_goals exact otherStatement_writes hg h
  all_goals exact otherStatement_writes hg h

theorem statementRule_writes (hg : g.Faithful) (h : g.statementRule c s = .ok n t) :
    c.Writes s [n] t := by
  simp only [statementRule, bind_eq_ok] at h
  obtain ⟨kind, u, hu, h⟩ := h
  obtain ⟨rfl, -⟩ := declarationKind?_eq_ok hu
  cases kind with
  | some kind => exact varStatement_writes hg (declarationKind?_dispensable hu) h
  | none => exact simpleStatement_writes hg h

/-! Levels and programs. -/

theorem exhausted_faithful : exhausted.Faithful where
  statement h := by simp [exhausted] at h
  assignment h := by simp [exhausted] at h
  unary h := by simp [exhausted] at h
  subscripted h := by simp [exhausted] at h
  atom h := by simp [exhausted] at h

/-- The number of turns does not matter. -/
theorem Faithful.withTurns (hg : g.Faithful) (turns : Nat) : { g with turns }.Faithful :=
  ⟨hg.statement, hg.assignment, hg.unary, hg.subscripted, hg.atom⟩

theorem Faithful.next (hg : g.Faithful) : g.next.Faithful where
  statement := statementRule_writes (hg.withTurns _)
  assignment := assignmentRule_writes (hg.withTurns _)
  unary := unaryRule_writes (hg.withTurns _)
  subscripted := subscriptedRule_writes (hg.withTurns _)
  atom := atomRule_writes (hg.withTurns _)

theorem level_faithful (n : Nat) : (level n).Faithful := by
  induction n with
  | zero => exact exhausted_faithful
  | succ n ih => exact ih.next

end JsClass.Grammar

namespace JsClass

/-- The tokens of a program account for its statements and for what was recorded. -/
theorem TokenStream.accounts {s : TokenStream} (hs : s.IsClosed) {d : Dialect} {options : Options}
    {body : List Node} {t : State} (h : s.statements d options = .ok body t) :
    Accounts options.reserved s.tokens body t.reported (body.flatMap Node.accessorProblems) := by
  obtain ⟨-, hpending, -⟩ := readsAll hs h
  rw [statements, Grammar.program] at h
  have hwrites := Grammar.statementsUntil_writes (Grammar.level_faithful _) h
  obtain ⟨taken, ds, htaken, hds, haccounts⟩ := hwrites hs.finish
  have htokens : s.tokens = taken ++ t.pending := htaken
  have hreported : t.reported = ds := hds
  rw [hpending, List.append_nil] at htokens
  rw [htokens, hreported]
  exact haccounts

theorem accounts_of_parse {options : Options} {source : String} {parsed : Parsed} {s : TokenStream}
    (hs : tokenize .withPrivate source = .ok s) (h : parse options source = .ok parsed) :
    Accounts options.reserved s.tokens parsed.program.body parsed.reported
      parsed.program.accessorProblems := by
  have hcovers := TokenStream.covers_of_tokenize hs
  simp only [parse, parseWith, hs, bind, Except.bind, TokenStream.parse_eq_ok] at h
  obtain ⟨body, t, hbody, rfl⟩ := h
  exact TokenStream.accounts ⟨hcovers.finish.1, hcovers.ne_eof⟩ hbody

theorem written_of_parse {options : Options} {source : String} {parsed : Parsed} {s : TokenStream}
    (hs : tokenize .withPrivate source = .ok s) (h : parse options source = .ok parsed) :
    Written s.tokens parsed.program.nodes :=
  (accounts_of_parse hs h).written

/-- The tokens of a text stand one behind the other. -/
theorem tokens_pairwise_lt {source : String} {s : TokenStream}
    (hs : tokenize .withPrivate source = .ok s) :
    s.tokens.Pairwise fun t u => t.pos.lt u.pos :=
  (TokenStream.covers_of_tokenize hs).pairwise_lt.sublist (List.sublist_append_left _ _)

end JsClass
