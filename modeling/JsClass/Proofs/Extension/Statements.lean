import JsClass.Grammar.Program
import JsClass.Proofs.Extension.Expressions

/-! Statements in both dialects, and from them whole programs. -/
namespace JsClass.Grammar

open JsClass.Parser

variable {g : Grammar} {c : Context} {Q : Prop} {s t : State} {n : Node}

/-! Declarations. -/

theorem declarationKind?_quiet : declarationKind?.Quiet := by
  refine .bind .peek fun x => ?_
  split
  · exact .pure _
  · exact .pure _
  · exact .bind (.peekAt _) fun _ => .ite (.pure _) (.pure _)
  · exact .pure _

theorem startsForIn_quiet (offset : Nat) : (startsForIn offset).Quiet :=
  .bind (.peekAt _) fun _ => .bind (.peekAt _) fun _ => .pure _

theorem declarator_follows (hg : g.Follows) (kind : VarKind) : (g.declarator kind).FollowsNode := by
  intro c s n t Q hc h hQ
  simp only [declarator, bind_eq_ok, ite_eq_ok, reject_eq_ok, and_false, exists_false,
    false_or] at h
  obtain ⟨name, u, hu, hb, init, v, hv, h⟩ := h
  cases init with
  | some init =>
    obtain ⟨rfl, rfl⟩ := pure_eq_ok.1 h
    have hinit := initializer?_follows hg hc hv hQ.parts.tail
    exact .step .ident hu (.neg hb (hinit.bind (.pure _ _)))
  | none =>
    simp only [bind_eq_ok, ite_eq_ok, reject_eq_ok, and_false, exists_false, false_or,
      pure_eq_ok] at h
    obtain ⟨hk, rfl, rfl⟩ := h
    have hinit := initializer?_follows (Q := Q) hg hc hv .nil
    exact .step .ident hu (.neg hb (hinit.bind (.neg hk (.pure _ _))))

theorem varDecl_follows (hg : g.Follows) (kind : VarKind) : (g.varDecl kind).FollowsNode := by
  intro c s n t Q hc h hQ
  simp only [varDecl, bind_eq_ok, pure_eq_ok] at h
  obtain ⟨_, u, hu, ns, v, hv, rfl, rfl⟩ := h
  have hQ : Keeps Q (ns.map (.ordinary c)) := hQ.parts
  refine .step .advance hu (.bind (collect_follows nodeView ?_ _ hc hv hQ.flatMap) (.pure _ _))
  intro c s r t Q hc hr hQ
  simp only [bind_eq_ok, ite_eq_ok, pure_eq_ok] at hr
  obtain ⟨d, u, hd, _, v, hv, ⟨hb, rfl, rfl⟩ | ⟨hb, rfl, rfl⟩⟩ := hr
  · exact (declarator_follows hg kind hc hd hQ).bind (.step (.accept _) hv (.pos hb (.pure _ _)))
  · exact (declarator_follows hg kind hc hd hQ).bind (.step (.accept _) hv (.neg hb (.pure _ _)))

theorem varStatement_follows (hg : g.Follows) (kind : VarKind) :
    (g.varStatement kind).FollowsNode := by
  intro c s n t Q hc h hQ
  simp only [varStatement, bind_eq_ok, pure_eq_ok] at h
  obtain ⟨decl, u, hu, _, v, hv, rfl, rfl⟩ := h
  exact (varDecl_follows hg kind hc hu hQ).bind (.step .semicolon hv (.pure _ _))

/-! Branches and loops. -/

theorem returnStatement_follows (hg : g.Follows) : g.returnStatement.FollowsNode := by
  refine FollowsBy.step (.expectKeyword _) fun x => .context (fun _ => rfl) fun _ =>
    .ite (.of_quiet (.reject _ _)) ?_
  refine .step (.check _) fun _ => .step .canInsertSemicolon fun _ => .ite ?_ ?_
  · exact .of_quiet (.bind .semicolon fun _ => .pure _)
  · intro c s n t Q hc h hQ
    simp only [bind_eq_ok, pure_eq_ok] at h
    obtain ⟨value, u, hu, _, v, hv, rfl, rfl⟩ := h
    exact (expression_follows hg hc hu hQ.parts).bind (.step .semicolon hv (.pure _ _))

theorem ifStatement_follows (hg : g.Follows) : g.ifStatement.FollowsNode := by
  intro c s n t Q hc h hQ
  simp only [ifStatement, bind_eq_ok, ite_eq_ok, pure_eq_ok] at h
  obtain ⟨_, u, hu, x, v, hx, y, w, hy, _, z, hz, ⟨hb, a, b, ha, rfl, rfl⟩ | ⟨hb, rfl, rfl⟩⟩ := h
  · have hyes := hg.statement hc hy hQ.parts.tail.head
    have hno := hg.statement hc ha hQ.parts.tail.tail
    exact .step (.expectKeyword _) hu ((parenthesized_follows hg hc hx hQ.parts.head).bind
      (hyes.bind (.step (.acceptKeyword _) hz (.pos hb (hno.bind (.pure _ _))))))
  · have hyes := hg.statement hc hy hQ.parts.tail
    exact .step (.expectKeyword _) hu ((parenthesized_follows hg hc hx hQ.parts.head).bind
      (hyes.bind (.step (.acceptKeyword _) hz (.neg hb (.pure _ _)))))

theorem whileStatement_follows (hg : g.Follows) : g.whileStatement.FollowsNode := by
  intro c s n t Q hc h hQ
  simp only [whileStatement, bind_eq_ok, pure_eq_ok] at h
  obtain ⟨_, u, hu, x, v, hx, y, w, hy, rfl, rfl⟩ := h
  exact .step (.expectKeyword _) hu ((parenthesized_follows hg hc hx hQ.parts.head).bind
    ((hg.statement hc hy hQ.parts.tail).bind (.pure _ _)))

theorem doWhileStatement_follows (hg : g.Follows) : g.doWhileStatement.FollowsNode := by
  intro c s n t Q hc h hQ
  simp only [doWhileStatement, bind_eq_ok, pure_eq_ok] at h
  obtain ⟨_, u, hu, y, v, hy, _, w, hw, x, z, hx, _, a, ha, rfl, rfl⟩ := h
  exact .step (.expectKeyword _) hu ((hg.statement hc hy hQ.parts.head).bind
    (.step (.expectKeyword _) hw ((parenthesized_follows hg hc hx hQ.parts.tail).bind
      (.step (.accept _) ha (.pure _ _)))))

theorem forInRest_follows (hg : g.Follows) (hc : c.dialect = .plain) {x : Token} {left : Node}
    (h : g.forInRest x left c s = .ok n t) (hQ : Keeps Q [.ordinary c n]) :
    c.Follows Q (g.forInRest x left) s n t := by
  simp only [forInRest, bind_eq_ok, ite_eq_ok, pure_eq_ok] at h
  obtain ⟨_, u, hu, ⟨hb, right, v, hv, _, w, hw, body, y, hy, rfl, rfl⟩ |
    ⟨hb, _, v, hv, right, w, hw, _, y, hy, body, z, hz, rfl, rfl⟩⟩ := h
  · have hbody := hg.statement hc hy hQ.parts.tail.tail
    exact .step (.acceptKeyword _) hu (.pos hb
      ((expression_follows hg hc hv hQ.parts.tail.head).bind
        (.step (.expect _) hw (hbody.bind (.pure _ _)))))
  · have hbody := hg.statement hc hz hQ.parts.tail.tail
    exact .step (.acceptKeyword _) hu (.neg hb (.step .advance hv
      ((hg.assignment hc hw hQ.parts.tail.head).bind
        (.step (.expect _) hy (hbody.bind (.pure _ _))))))

theorem optionalBefore_follows (hg : g.Follows) (close : Punct) :
    (g.optionalBefore close).FollowsBy fun c n => n.toList.map (.ordinary c) := by
  intro c s n t Q hc h hQ
  simp only [optionalBefore, bind_eq_ok, ite_eq_ok, pure_eq_ok] at h
  obtain ⟨_, u, hu, ⟨hb, rfl, rfl⟩ | ⟨hb, x, v, hx, rfl, rfl⟩⟩ := h
  · exact .step (.check _) hu (.pos hb (.pure _ _))
  · exact .step (.check _) hu (.neg hb ((expression_follows hg hc hx hQ).bind (.pure _ _)))

theorem forRest_follows (hg : g.Follows) (hc : c.dialect = .plain) {x : Token} {init : Option Node}
    (h : g.forRest x init c s = .ok n t) (hQ : Keeps Q [.ordinary c n]) :
    Keeps Q (init.toList.map (.ordinary c)) ∧ c.Follows Q (g.forRest x init) s n t := by
  simp only [forRest, bind_eq_ok, pure_eq_ok] at h
  obtain ⟨_, u, hu, condition, v, hv, _, w, hw, step, a, ha, _, b, hb, body, d, hd, rfl, rfl⟩ := h
  have hQ : Keeps Q (init.toList.map (.ordinary c) ++ (condition.toList.map (.ordinary c)
      ++ (step.toList.map (.ordinary c) ++ [.ordinary c body]))) := by
    cases init <;> cases condition <;> cases step <;> exact hQ.parts
  have hcondition := optionalBefore_follows hg _ hc hv hQ.right.left
  have hstep := optionalBefore_follows hg _ hc ha hQ.right.right.left
  have hbody := hg.statement hc hd hQ.right.right.right
  refine ⟨hQ.left, .step (.expect _) hu (hcondition.bind ?_)⟩
  exact .step (.expect _) hw (hstep.bind (.step (.expect _) hb (hbody.bind (.pure _ _))))

theorem forStatement_follows (hg : g.Follows) : g.forStatement.FollowsNode := by
  refine FollowsBy.step (.expectKeyword _) fun x => .step (.expect _) fun _ =>
    .step declarationKind?_quiet fun kind => ?_
  cases kind with
  | some kind =>
    refine FollowsBy.step (startsForIn_quiet _) fun b => .ite ?_ ?_
    · refine FollowsBy.step .advance fun keyword => .step .ident fun name => ?_
      intro c s n t Q hc h hQ
      exact forInRest_follows hg hc h hQ
    · intro c s n t Q hc h hQ
      simp only [bind_eq_ok] at h
      obtain ⟨decl, u, hu, h⟩ := h
      obtain ⟨hdecl, hrest⟩ := forRest_follows hg hc h hQ
      exact (varDecl_follows hg kind hc hu hdecl).bind hrest
  | none =>
    refine FollowsBy.step (startsForIn_quiet _) fun b => .ite ?_ ?_
    · refine FollowsBy.step .ident fun name => ?_
      intro c s n t Q hc h hQ
      exact forInRest_follows hg hc h hQ
    · intro c s n t Q hc h hQ
      simp only [bind_eq_ok] at h
      obtain ⟨init, u, hu, h⟩ := h
      obtain ⟨hinit, hrest⟩ := forRest_follows hg hc h hQ
      exact (optionalBefore_follows hg _ hc hu hinit).bind hrest

/-! Switches and handlers. -/

theorem caseRest_follows (hg : g.Follows) (hc : c.dialect = .plain) {x : Token}
    {test : Option Node} (h : g.caseRest x test c s = .ok n t) (hQ : Keeps Q [.ordinary c n]) :
    Keeps Q (test.toList.map (.ordinary c)) ∧ c.Follows Q (g.caseRest x test) s n t := by
  simp only [caseRest, bind_eq_ok, pure_eq_ok] at h
  obtain ⟨_, u, hu, ns, v, hv, rfl, rfl⟩ := h
  refine ⟨hQ.parts.left, .step (.expect _) hu ?_⟩
  exact (statementsUntil_follows hg hc hv hQ.parts.right).bind (.pure _ _)

theorem switchCases_follows (hg : g.Follows) :
    g.switchCases.FollowsBy fun c ns => ns.map (.ordinary c) := by
  intro c s ns t Q hc h hQ
  refine collectFrom_follows nodeView (fun hasDefault => ?_) _ _ hc h hQ.flatMap
  refine FollowsBy.step .peek fun x => ?_
  split
  · exact .of_quiet (.pure _)
  · exact .of_quiet (.pure _)
  · refine FollowsBy.step .advance fun _ => ?_
    intro c s r t Q hc h hQ
    simp only [bind_eq_ok, pure_eq_ok] at h
    obtain ⟨test, u, hu, n, v, hv, rfl, rfl⟩ := h
    obtain ⟨htest, hrest⟩ := caseRest_follows hg hc hv hQ
    exact (expression_follows hg hc hu htest).bind (hrest.bind (.pure _ _))
  · refine FollowsBy.step .advance fun _ => .ite (.of_quiet (.reject _ _)) ?_
    intro c s r t Q hc h hQ
    simp only [bind_eq_ok, pure_eq_ok] at h
    obtain ⟨n, v, hv, rfl, rfl⟩ := h
    exact (caseRest_follows hg hc hv hQ).2.bind (.pure _ _)
  · exact .of_quiet (.unexpected _)

theorem switchStatement_follows (hg : g.Follows) : g.switchStatement.FollowsNode := by
  intro c s n t Q hc h hQ
  simp only [switchStatement, bind_eq_ok, pure_eq_ok] at h
  obtain ⟨_, u, hu, x, v, hv, _, w, hw, ns, a, ha, _, b, hb, rfl, rfl⟩ := h
  have hcases := switchCases_follows hg hc ha hQ.parts.tail
  exact .step (.expectKeyword _) hu ((parenthesized_follows hg hc hv hQ.parts.head).bind
    (.step (.expect _) hw (hcases.bind (.step (.expect _) hb (.pure _ _)))))

theorem wordStatement_quiet (shape : Shape Node) : (wordStatement shape).Quiet :=
  .bind .advance fun _ => .bind .semicolon fun _ => .pure _

theorem throwStatement_follows (hg : g.Follows) : g.throwStatement.FollowsNode := by
  refine FollowsBy.step (.expectKeyword _) fun x => .step .peek fun next =>
    .ite (.of_quiet (.reject _ _)) ?_
  intro c s n t Q hc h hQ
  simp only [bind_eq_ok, pure_eq_ok] at h
  obtain ⟨argument, u, hu, _, v, hv, rfl, rfl⟩ := h
  exact (expression_follows hg hc hu hQ.parts).bind (.step .semicolon hv (.pure _ _))

theorem catchParam?_quiet : catchParam?.Quiet :=
  .bind (.accept _) fun _ => .ite (.bind .ident fun _ => .bind (.expect _) fun _ => .pure _)
    (.pure _)

theorem handler?_follows (hg : g.Follows) :
    g.handler?.FollowsBy fun c h => h.2.toList.map (.ordinary c) := by
  intro c s x t Q hc h hQ
  simp only [handler?, bind_eq_ok, ite_eq_ok, pure_eq_ok] at h
  obtain ⟨_, u, hu, ⟨hb, x, v, hv, y, w, hw, rfl, rfl⟩ | ⟨hb, rfl, rfl⟩⟩ := h
  · exact .step (.acceptKeyword _) hu (.pos hb (.step catchParam?_quiet hv
      ((block_follows hg hc hw hQ).bind (.pure _ _))))
  · exact .step (.acceptKeyword _) hu (.neg hb (.pure _ _))

theorem finalizer?_follows (hg : g.Follows) :
    g.finalizer?.FollowsBy fun c n => n.toList.map (.ordinary c) := by
  intro c s n t Q hc h hQ
  simp only [finalizer?, bind_eq_ok, ite_eq_ok, pure_eq_ok] at h
  obtain ⟨_, u, hu, ⟨hb, x, v, hx, rfl, rfl⟩ | ⟨hb, rfl, rfl⟩⟩ := h
  · exact .step (.acceptKeyword _) hu (.pos hb ((block_follows hg hc hx hQ).bind (.pure _ _)))
  · exact .step (.acceptKeyword _) hu (.neg hb (.pure _ _))

theorem tryStatement_follows (hg : g.Follows) : g.tryStatement.FollowsNode := by
  intro c s n t Q hc h hQ
  simp only [tryStatement, bind_eq_ok, ite_eq_ok, reject_eq_ok, pure_eq_ok, and_false,
    false_or] at h
  obtain ⟨_, u, hu, body, v, hv, ⟨param, handler⟩, w, hw, finalizer, a, ha, hb, rfl, rfl⟩ := h
  have hQ : Keeps Q (.ordinary c body :: (param.toList.map (.ordinary c)
      ++ (handler.toList.map (.ordinary c) ++ finalizer.toList.map (.ordinary c)))) := by
    cases param <;> cases handler <;> cases finalizer <;> exact hQ.parts
  have hbody := block_follows hg hc hv hQ.head
  have hhandler := handler?_follows hg hc hw hQ.tail.right.left
  have hfinalizer := finalizer?_follows hg hc ha hQ.tail.right.right
  exact .step (.expectKeyword _) hu (hbody.bind (hhandler.bind (hfinalizer.bind
    (.neg hb (.pure _ _)))))

/-! All statements. -/

theorem expressionStatement_follows (hg : g.Follows) : g.expressionStatement.FollowsNode := by
  intro c s n t Q hc h hQ
  simp only [expressionStatement, bind_eq_ok, pure_eq_ok] at h
  obtain ⟨_, u, hu, e, v, hv, _, w, hw, rfl, rfl⟩ := h
  exact .step .peek hu ((expressionRule_follows hg hc hv hQ.parts).bind
    (.step .semicolon hw (.pure _ _)))

theorem otherStatement_follows (hg : g.Follows) : g.otherStatement.FollowsNode := by
  refine FollowsBy.step isAsyncFunction_quiet fun b => .ite ?_ (expressionStatement_follows hg)
  exact FollowsBy.step .advance fun _ => function_follows hg _ _

theorem simpleStatement_follows (hg : g.Follows) : g.simpleStatement.FollowsNode := by
  refine FollowsBy.step .peek fun x => ?_
  split
  · exact block_follows hg
  · exact .of_quiet (.bind .advance fun _ => .pure _)
  · exact function_follows hg _ _
  · exact class_follows hg _
  · exact returnStatement_follows hg
  · exact ifStatement_follows hg
  · exact whileStatement_follows hg
  · exact doWhileStatement_follows hg
  · exact forStatement_follows hg
  · exact switchStatement_follows hg
  · exact .of_quiet (wordStatement_quiet _)
  · exact .of_quiet (wordStatement_quiet _)
  · exact tryStatement_follows hg
  · exact throwStatement_follows hg
  · exact .of_quiet (wordStatement_quiet _)
  · exact .of_quiet (.reject _ _)
  · exact .of_quiet (.reject _ _)
  · exact .of_quiet (.reject _ _)
  · exact otherStatement_follows hg

theorem statementRule_follows (hg : g.Follows) : g.statementRule.FollowsNode := by
  refine FollowsBy.step declarationKind?_quiet fun kind => ?_
  cases kind with
  | some kind => exact varStatement_follows hg kind
  | none => exact simpleStatement_follows hg

/-! Levels and programs. -/

theorem exhausted_follows : exhausted.Follows where
  statement := FollowsBy.of_quiet (.fail _)
  assignment := FollowsBy.of_quiet (.fail _)
  unary := FollowsBy.of_quiet (.fail _)
  subscripted := FollowsBy.of_quiet (.fail _)
  atom := FollowsBy.of_quiet (.fail _)

/-- The number of turns does not matter. -/
theorem Follows.withTurns (hg : g.Follows) (turns : Nat) : { g with turns }.Follows :=
  ⟨hg.statement, hg.assignment, hg.unary, hg.subscripted, hg.atom⟩

theorem Follows.next (hg : g.Follows) : g.next.Follows where
  statement := statementRule_follows (hg.withTurns _)
  assignment := assignmentRule_follows (hg.withTurns _)
  unary := unaryRule_follows (hg.withTurns _)
  subscripted := subscriptedRule_follows (hg.withTurns _)
  atom := atomRule_follows (hg.withTurns _)

theorem level_follows (n : Nat) : (level n).Follows := by
  induction n with
  | zero => exact exhausted_follows
  | succ n ih => exact ih.next

end JsClass.Grammar

namespace JsClass

theorem TokenStream.statements_follows {s : TokenStream} {options : Options} {body : List Node}
    {t : State} {Q : Prop} (h : s.statements .plain options = .ok body t)
    (hQ : Keeps Q (body.map (.ordinary (.initial .plain options s.finish)))) :
    s.statements .withPrivate options = .ok body (t.withScope .empty) ∨
      ¬ Q ∧ ∃ pos u,
        s.statements .withPrivate options = .error (.rejected ⟨.staticConstructor, pos⟩) u := by
  rw [statements, Grammar.program] at h
  exact Grammar.statementsUntil_follows (Grammar.level_follows _) rfl h hQ .empty

end JsClass
