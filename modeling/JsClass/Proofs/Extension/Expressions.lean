import Mathlib.Data.List.Basic
import JsClass.Grammar.Expression
import JsClass.Proofs.Extension.Members

/-! Classes and expressions in both dialects. -/
namespace JsClass.Grammar

open JsClass.Parser

variable {g : Grammar} {c : Context} {Q : Prop} {s t : State} {n : Node}

/-! Classes. -/

theorem className?_quiet (isExpression : Bool) : (className? isExpression).Quiet :=
  .bind .peek fun _ => .ite (.bind .ident fun _ => .pure _) (.ite (.pure _) (.reject _ _))

theorem classElement_follows (hg : g.Follows) :
    g.classElement.FollowsBy fun c m => m.toList.map (.member c) := by
  intro c s m t Q hc h hQ
  simp only [classElement, bind_eq_ok, ite_eq_ok, context_eq_ok, pure_eq_ok] at h
  obtain ⟨_, u, hu, ⟨hb, rfl, rfl⟩ | ⟨hb, _, _, ⟨rfl, rfl⟩, h⟩⟩ := h
  · exact .step (.accept _) hu (.pos hb (.pure _ _))
  · simp only [hc, bind_eq_ok, pure_eq_ok] at h
    obtain ⟨n, v, hv, rfl, rfl⟩ := h
    have hmember := privateDialectElement_follows hg hc hv hQ
    exact .step (.accept _) hu (.neg hb (.extended (hmember.bind (.pure _ _))))

theorem classMembers_follows (hg : g.Follows) :
    g.classMembers.FollowsBy fun c ns => ns.map (.member c) := by
  intro c s ns t Q hc h hQ
  simp only [classMembers, bind_eq_ok] at h
  obtain ⟨_, u, hu, h⟩ := h
  refine .step (.expect _) hu
    (collectFrom_follows (fun c m => [.member c m]) ?_ _ _ hc h hQ.flatMap)
  intro hasConstructor c s r t Q hc hr hQ
  simp only [bind_eq_ok, ite_eq_ok, unexpectedNext_eq_ok, pure_eq_ok, and_false, false_or] at hr
  obtain ⟨_, u, hu, ⟨hb, rfl, rfl⟩ | ⟨hb, _, v, hv, he, m, w, hw, hr⟩⟩ := hr
  · exact .step (.accept _) hu (.pos hb (.pure _ _))
  · refine .step (.accept _) hu (.neg hb (.step .atEnd hv (.neg he ?_)))
    cases m with
    | none =>
      obtain ⟨rfl, rfl⟩ := pure_eq_ok.1 hr
      exact (classElement_follows hg hc hw .nil).bind (.pure _ _)
    | some m =>
      simp only [ite_eq_ok, reject_eq_ok, pure_eq_ok, and_false, false_or] at hr
      obtain ⟨hm, rfl, rfl⟩ := hr
      exact (classElement_follows hg hc hw hQ).bind (.neg hm (.pure _ _))

theorem superclass?_follows (hg : g.Follows) :
    g.superclass?.FollowsBy fun c n => n.toList.map (.ordinary c) := by
  intro c s n t Q hc h hQ
  simp only [superclass?, bind_eq_ok, ite_eq_ok, pure_eq_ok] at h
  obtain ⟨_, u, hu, ⟨hb, x, v, hx, rfl, rfl⟩ | ⟨hb, rfl, rfl⟩⟩ := h
  · exact .step (.acceptKeyword _) hu (.pos hb ((hg.subscripted hc hx hQ).bind (.pure _ _)))
  · exact .step (.acceptKeyword _) hu (.neg hb (.pure _ _))

theorem classRest_follows (hg : g.Follows) (isExpression : Bool) :
    (g.classRest isExpression).FollowsNode := by
  intro c s n t Q hc h hQ
  simp only [classRest, within_apply, bind_eq_ok, pure_eq_ok] at h
  obtain ⟨_, u, hu, name, v, hv, superclass, w, hw, members, x, hx, rfl, rfl⟩ := h
  have hc : c.classBody.dialect = .plain := hc
  have hsuperclass := superclass?_follows hg hc hw hQ.parts.right.left
  have hmembers := classMembers_follows hg hc hx hQ.parts.right.right
  exact .step (.expectKeyword _) hu (.within rfl (.step (className?_quiet _) hv
    (hsuperclass.bind (hmembers.bind (.pure _ _)))))

theorem class_follows (hg : g.Follows) (isExpression : Bool) :
    (g.class_ isExpression).FollowsNode := by
  intro c s n t Q hc h hQ
  have hrest : g.classRest isExpression c s = .ok n t := by
    simp only [class_, bind_eq_ok, context_eq_ok] at h
    obtain ⟨_, _, ⟨rfl, rfl⟩, h⟩ := h
    simpa only [hc] using h
  exact .extended (.inClassBody (classRest_follows hg isExpression hc hrest hQ))

/-! Arguments, elements and accesses. -/

theorem spreadable_follows (hg : g.Follows) : g.spreadable.FollowsNode := by
  intro c s n t Q hc h hQ
  simp only [spreadable, bind_eq_ok, ite_eq_ok, pure_eq_ok] at h
  obtain ⟨_, u, hu, _, v, hv, ⟨hb, x, w, hx, rfl, rfl⟩ | ⟨hb, h⟩⟩ := h
  · exact .step .peek hu (.step (.accept _) hv (.pos hb
      ((hg.assignment hc hx hQ.parts).bind (.pure _ _))))
  · exact .step .peek hu (.step (.accept _) hv (.neg hb (hg.assignment hc h hQ)))

theorem arguments_follows (hg : g.Follows) :
    g.arguments.FollowsBy fun c ns => ns.map (.ordinary c) := by
  intro c s ns t Q hc h hQ
  exact separated_follows (spreadable_follows hg) _ _ hc h hQ.flatMap

theorem element_follows (hg : g.Follows) :
    g.element.FollowsBy fun c x => x.toList.map (.ordinary c) := by
  intro c s x t Q hc h hQ
  simp only [element, bind_eq_ok, ite_eq_ok, pure_eq_ok] at h
  obtain ⟨_, u, hu, ⟨hb, rfl, rfl⟩ | ⟨hb, x, v, hx, rfl, rfl⟩⟩ := h
  · exact .step (.check _) hu (.pos hb (.pure _ _))
  · exact .step (.check _) hu (.neg hb ((spreadable_follows hg hc hx hQ).bind (.pure _ _)))

theorem array_follows (hg : g.Follows) : g.array.FollowsNode := by
  intro c s n t Q hc h hQ
  simp only [array, bind_eq_ok, pure_eq_ok] at h
  obtain ⟨_, u, hu, elements, v, hv, rfl, rfl⟩ := h
  have hQ : Keeps Q ((elements.filterMap id).map (.ordinary c)) := hQ.parts
  rw [List.filterMap_eq_flatMap_toList, List.map_flatMap] at hQ
  have helements := separated_follows (element_follows hg) _ _ hc hv hQ
  exact .step (.expect _) hu (helements.bind (.pure _ _))

/-- A word behind a point is no private name. -/
theorem dotProperty_follows (hc : c.dialect = .plain) (h : dotProperty c s = .ok n t) :
    c.Follows Q dotProperty s n t := by
  simp only [dotProperty, bind_eq_ok, context_eq_ok, ite_eq_ok, pure_eq_ok] at h
  obtain ⟨x, u, hu, _, _, ⟨rfl, rfl⟩, ⟨hb, -⟩ | ⟨-, i, v, hv, rfl, rfl⟩⟩ := h
  · simp [hc] at hb
  · refine .step .peek hu (.extended (.neg ?_ (.step .propertyWord hv (.pure _ _))))
    simp only [propertyWord, bind_eq_ok, anyWord_eq_ok] at hv
    obtain ⟨rfl, rfl⟩ := peek_eq_ok.1 hu
    obtain ⟨_, _, ⟨word, hw, -⟩, -⟩ := hv
    cases hk : (c.next s).kind <;> simp_all [Kind.word?, Kind.isPrivateName]

theorem subscript_follows (hg : g.Follows) (calls : Bool) (base : Node) :
    (g.subscript calls base).FollowsFrom base := by
  refine FollowsFrom.step .peek fun x => ?_
  split
  · intro c s r t Q hc h hQ
    simp only [bind_eq_ok, pure_eq_ok] at h
    obtain ⟨_, u, hu, p, v, hv, rfl, rfl⟩ := h
    exact ⟨hQ.parts.head, .step .advance hu ((dotProperty_follows hc hv).bind (.pure _ _))⟩
  · intro c s r t Q hc h hQ
    simp only [bind_eq_ok, pure_eq_ok] at h
    obtain ⟨_, u, hu, p, v, hv, _, w, hw, rfl, rfl⟩ := h
    refine ⟨hQ.parts.head, .step .advance hu ?_⟩
    exact (expression_follows hg hc hv hQ.parts.tail).bind (.step (.expect _) hw (.pure _ _))
  · refine FollowsFrom.ite ?_ .none
    intro c s r t Q hc h hQ
    simp only [bind_eq_ok, pure_eq_ok] at h
    obtain ⟨_, u, hu, ns, v, hv, rfl, rfl⟩ := h
    refine ⟨hQ.parts.head, .step .advance hu ?_⟩
    exact (arguments_follows hg hc hv hQ.parts.tail).bind (.pure _ _)
  · exact .none

theorem subscripts_follows (hg : g.Follows) (hc : c.dialect = .plain) {calls : Bool} {base : Node}
    (h : g.subscripts calls base c s = .ok n t) (hQ : Keeps Q [.ordinary c n]) :
    Keeps Q [.ordinary c base] ∧ c.Follows Q (g.subscripts calls base) s n t :=
  extend_follows (subscript_follows hg calls) hc h hQ

theorem newExpression_follows (hg : g.Follows) : g.newExpression.FollowsNode := by
  intro c s n t Q hc h hQ
  simp only [newExpression, bind_eq_ok, ite_eq_ok, reject_eq_ok, and_false, false_or,
    pure_eq_ok] at h
  obtain ⟨_, u, hu, _, v, hv, hb, x, w, hw, y, z, hz, _, a, ha,
    ⟨hp, ns, b, hns, rfl, rfl⟩ | ⟨hp, rfl, rfl⟩⟩ := h
  · obtain ⟨hx, hcallee⟩ := subscripts_follows hg hc hz hQ.parts.head
    have hargs := arguments_follows hg hc hns hQ.parts.tail
    exact .step (.expectKeyword _) hu (.step .peek hv (.neg hb ((hg.atom hc hw hx).bind
      (hcallee.bind (.step (.accept _) ha (.pos hp (hargs.bind (.pure _ _))))))))
  · obtain ⟨hx, hcallee⟩ := subscripts_follows hg hc hz hQ.parts.head
    exact .step (.expectKeyword _) hu (.step .peek hv (.neg hb ((hg.atom hc hw hx).bind
      (hcallee.bind (.step (.accept _) ha (.neg hp (.pure _ _)))))))

/-! Atoms. -/

theorem superExpression_quiet : superExpression.Quiet := by
  refine .bind (.expectKeyword _) fun _ => ?_
  refine .context (fun _ => rfl) fun c => .bind .peek fun _ => ?_
  split
  · exact .ite (.reject _ _) (.ite (.reject _ _) (.pure _))
  · exact .ite (.reject _ _) (.pure _)
  · exact .ite (.reject _ _) (.pure _)
  · exact .unexpected _

theorem nameExpression_follows (hg : g.Follows) : g.nameExpression.FollowsNode := by
  refine FollowsBy.step .peek fun x => .step isAsyncFunction_quiet fun b => .ite ?_ ?_
  · exact .step .advance fun _ => function_follows hg _ _
  · refine FollowsBy.step .ident fun name => .step .peek fun next => .ite ?_ (.of_quiet (.pure _))
    intro c s n t Q hc h hQ
    exact (arrow_follows hg hc h hQ).2

theorem parenExpression_follows (hg : g.Follows) : g.parenExpression.FollowsNode := by
  refine FollowsBy.step .peek fun x => .step isArrowParams_quiet fun b =>
    .ite ?_ (parenthesized_follows hg)
  intro c s n t Q hc h hQ
  obtain ⟨ps, u, hu, h⟩ := bind_eq_ok.1 h
  obtain ⟨hps, harrow⟩ := arrow_follows hg hc h hQ
  exact (params_follows hg hc hu hps).bind harrow

theorem atomRule_follows (hg : g.Follows) : g.atomRule.FollowsNode := by
  refine FollowsBy.step .peek fun x => ?_
  split
  · exact .of_quiet superExpression_quiet
  · exact .of_quiet (.bind .advance fun _ => .pure _)
  · exact nameExpression_follows hg
  · exact .of_quiet (.bind .advance fun _ => numberLiteral_quiet _ _)
  · exact .of_quiet (.bind .advance fun _ => .pure _)
  · exact .of_quiet (.bind .advance fun _ => .pure _)
  · exact .of_quiet (.bind .advance fun _ => .pure _)
  · exact .of_quiet (.bind .advance fun _ => .pure _)
  · exact parenExpression_follows hg
  · exact array_follows hg
  · exact object_follows hg
  · exact function_follows hg _ _
  · exact class_follows hg _
  · exact newExpression_follows hg
  · exact .of_quiet (.unexpected _)

theorem subscriptedRule_follows (hg : g.Follows) : g.subscriptedRule.FollowsNode := by
  intro c s n t Q hc h hQ
  simp only [subscriptedRule, bind_eq_ok, ite_eq_ok, pure_eq_ok] at h
  obtain ⟨x, u, hu, ⟨hb, rfl, rfl⟩ | ⟨hb, h⟩⟩ := h
  · exact (atomRule_follows hg hc hu hQ).bind (.pos hb (.pure _ _))
  · obtain ⟨hx, hrest⟩ := subscripts_follows hg hc h hQ
    exact (atomRule_follows hg hc hu hx).bind (.neg hb hrest)

/-! Operators. -/

theorem checkTarget_quiet (n : Node) : (checkTarget n).Quiet := .ite (.pure _) (.reject _ _)

theorem postfixUpdate_follows (operand : Node) : (postfixUpdate operand).FollowsFrom operand := by
  refine FollowsFrom.step .peek fun x => ?_
  split
  · refine FollowsFrom.ite .none ?_
    intro c s r t Q hc h hQ
    simp only [bind_eq_ok, pure_eq_ok] at h
    obtain ⟨_, u, hu, _, v, hv, rfl, rfl⟩ := h
    exact ⟨hQ.parts, .step (checkTarget_quiet _) hu (.step .advance hv (.pure _ _))⟩
  · exact .none

theorem checkDelete_quiet (x : Token) (operand : Node) : (checkDelete x operand).Quiet :=
  .context (fun _ => rfl) fun _ => .ite (.reject _ _) (.ite (.reject _ _) (.pure _))

theorem unaryOperator_follows (hg : g.Follows) (x : Token) (op : UnaryOp) :
    (g.unaryOperator x op).FollowsNode := by
  intro c s n t Q hc h hQ
  simp only [unaryOperator, bind_eq_ok, ite_eq_ok, pure_eq_ok] at h
  obtain ⟨operand, u, hu, ⟨hb, _, v, hv, rfl, rfl⟩ | ⟨hb, rfl, rfl⟩⟩ := h
  · exact (hg.unary hc hu hQ.parts).bind (.pos hb (.step (checkDelete_quiet _ _) hv (.pure _ _)))
  · exact (hg.unary hc hu hQ.parts).bind (.neg hb (.pure _ _))

theorem prefixUpdate_follows (hg : g.Follows) (x : Token) (op : UpdateOp) :
    (g.prefixUpdate x op).FollowsNode := by
  intro c s n t Q hc h hQ
  simp only [prefixUpdate, bind_eq_ok, pure_eq_ok] at h
  obtain ⟨operand, u, hu, _, v, hv, rfl, rfl⟩ := h
  exact (hg.unary hc hu hQ.parts).bind (.step (checkTarget_quiet _) hv (.pure _ _))

theorem unaryRule_follows (hg : g.Follows) : g.unaryRule.FollowsNode := by
  refine FollowsBy.step .peek fun x => .context (fun _ => rfl) fun _ => .ite ?_ ?_
  · intro c s n t Q hc h hQ
    simp only [bind_eq_ok, pure_eq_ok] at h
    obtain ⟨_, u, hu, y, v, hv, rfl, rfl⟩ := h
    exact .step .advance hu ((hg.unary hc hv hQ.parts).bind (.pure _ _))
  · split
    · exact .step .advance fun _ => unaryOperator_follows hg _ _
    · exact .step .advance fun _ => prefixUpdate_follows hg _ _
    · intro c s n t Q hc h hQ
      obtain ⟨y, u, hu, h⟩ := bind_eq_ok.1 h
      obtain ⟨hy, hrest⟩ := extend_follows postfixUpdate_follows hc h hQ
      exact (subscriptedRule_follows hg hc hu hy).bind hrest

/-- The left operand is kept through the whole climb. -/
theorem climb_follows {unary : Parser Node} (hu : unary.FollowsNode) (hc : c.dialect = .plain)
    {turns bound : Nat} {left : Node} (h : climb unary turns bound left c s = .ok n t)
    (hQ : Keeps Q [.ordinary c n]) :
    Keeps Q [.ordinary c left] ∧ c.Follows Q (climb unary turns bound left) s n t := by
  induction turns generalizing bound left s n t with
  | zero => simp [climb] at h
  | succ turns ih =>
    simp only [climb, bind_eq_ok] at h
    obtain ⟨x, u, hx, h⟩ := h
    unfold climb
    cases hop : BinaryOp.ofKind? x.kind with
    | none =>
      simp only [hop, pure_eq_ok] at h
      obtain ⟨rfl, rfl⟩ := h
      refine ⟨hQ, .step .peek hx ?_⟩
      rw [hop]
      exact .pure _ _
    | some op =>
      simp only [hop, ite_eq_ok, bind_eq_ok, pure_eq_ok] at h
      obtain ⟨hb, rfl, rfl⟩ | ⟨hb, _, v, hv, y, w, hy, right, z, hz, h⟩ := h
      · refine ⟨hQ, .step .peek hx ?_⟩
        rw [hop]
        exact .pos hb (.pure _ _)
      · obtain ⟨hnode, hrest⟩ := ih h hQ
        obtain ⟨hy', hright⟩ := ih hz hnode.parts.tail
        refine ⟨hnode.parts.head, .step .peek hx ?_⟩
        rw [hop]
        exact .neg hb (.step .advance hv ((hu hc hy hy').bind (hright.bind hrest)))

theorem binaryRule_follows (hg : g.Follows) : g.binaryRule.FollowsNode := by
  intro c s n t Q hc h hQ
  simp only [binaryRule, bind_eq_ok] at h
  obtain ⟨left, u, hu, h⟩ := h
  obtain ⟨hleft, hrest⟩ := climb_follows (unaryRule_follows hg) hc h hQ
  exact (unaryRule_follows hg hc hu hleft).bind hrest

theorem conditionalRule_follows (hg : g.Follows) : g.conditionalRule.FollowsNode := by
  intro c s n t Q hc h hQ
  simp only [conditionalRule, bind_eq_ok, ite_eq_ok, pure_eq_ok] at h
  obtain ⟨x, u, hx, _, v, hv, ⟨hb, y, w, hy, _, z, hz, a, b, ha, rfl, rfl⟩ | ⟨hb, rfl, rfl⟩⟩ := h
  · have hyes := hg.assignment hc hy hQ.parts.tail.head
    have hno := hg.assignment hc ha hQ.parts.tail.tail
    exact (binaryRule_follows hg hc hx hQ.parts.head).bind (.step (.accept _) hv (.pos hb
      (hyes.bind (.step (.expect _) hz (hno.bind (.pure _ _))))))
  · exact (binaryRule_follows hg hc hx hQ).bind (.step (.accept _) hv (.neg hb (.pure _ _)))

theorem yieldExpression_follows (hg : g.Follows) : g.yieldExpression.FollowsNode := by
  refine FollowsBy.step .advance fun x => .step .peek fun next => .ite (.of_quiet (.pure _)) ?_
  refine .step (.accept _) fun delegate => ?_
  intro c s n t Q hc h hQ
  simp only [bind_eq_ok, pure_eq_ok] at h
  obtain ⟨y, u, hu, rfl, rfl⟩ := h
  exact (hg.assignment hc hu hQ.parts).bind (.pure _ _)

theorem assignmentRule_follows (hg : g.Follows) : g.assignmentRule.FollowsNode := by
  refine FollowsBy.step (.checkWord _) fun isYield => .context (fun _ => rfl) fun _ =>
    .ite (yieldExpression_follows hg) ?_
  intro c s n t Q hc h hQ
  simp only [bind_eq_ok] at h
  obtain ⟨target, u, hu, x, v, hv, h⟩ := h
  cases hop : AssignOp.ofKind? x.kind with
  | none =>
    simp only [hop, pure_eq_ok] at h
    obtain ⟨rfl, rfl⟩ := h
    refine (conditionalRule_follows hg hc hu hQ).bind (.step .peek hv ?_)
    rw [hop]
    exact .pure _ _
  | some op =>
    simp only [hop, bind_eq_ok, pure_eq_ok] at h
    obtain ⟨_, w, hw, _, y, hy, value, z, hz, rfl, rfl⟩ := h
    refine (conditionalRule_follows hg hc hu hQ.parts.head).bind (.step .peek hv ?_)
    rw [hop]
    exact .step (checkTarget_quiet _) hw (.step .advance hy
      ((hg.assignment hc hz hQ.parts.tail).bind (.pure _ _)))

theorem expressionRule_follows (hg : g.Follows) : g.expressionRule.FollowsNode :=
  commaExpression_follows (assignmentRule_follows hg)

end JsClass.Grammar
