import JsClass.Proofs.Extension.Basic

/-! The rules for functions and for the properties of objects in both dialects. -/
namespace JsClass.Grammar

open JsClass.Parser

structure Follows (g : Grammar) : Prop where
  statement : g.statement.FollowsNode
  assignment : g.assignment.FollowsNode
  unary : g.unary.FollowsNode
  subscripted : g.subscripted.FollowsNode
  atom : g.atom.FollowsNode

variable {g : Grammar} {c : Context} {Q : Prop} {s t : State} {n : Node} {ns : List Node}

theorem commaExpression_follows {turns : Nat} {assignment : Parser Node}
    (ha : assignment.FollowsNode) : (commaExpression turns assignment).FollowsNode := by
  intro c s n t Q hc h hQ
  simp only [commaExpression, bind_eq_ok, ite_eq_ok, pure_eq_ok] at h
  obtain ⟨first, u, hu, _, v, hv, ⟨hb, rest, w, hw, rfl, rfl⟩ | ⟨hb, rfl, rfl⟩⟩ := h
  · have hQ : Keeps Q (.ordinary c first :: rest.map (.ordinary c)) := hQ.parts
    refine (ha hc hu hQ.head).bind (.step (.check _) hv (.pos hb (.bind ?_ (.pure _ _))))
    refine collect_follows nodeView ?_ _ hc hw hQ.tail.flatMap
    intro c s r t Q hc hr hQ
    simp only [bind_eq_ok, ite_eq_ok, pure_eq_ok] at hr
    obtain ⟨_, u, hu, ⟨hb, x, v, hx, rfl, rfl⟩ | ⟨hb, rfl, rfl⟩⟩ := hr
    · exact .step (.accept _) hu (.pos hb ((ha hc hx hQ).bind (.pure _ _)))
    · exact .step (.accept _) hu (.neg hb (.pure _ _))
  · exact (ha hc hu hQ).bind (.step (.check _) hv (.neg hb (.pure _ _)))

theorem expression_follows (hg : g.Follows) : g.expression.FollowsNode :=
  commaExpression_follows hg.assignment

theorem parenthesized_follows (hg : g.Follows) : g.parenthesized.FollowsNode := by
  intro c s n t Q hc h hQ
  simp only [parenthesized, bind_eq_ok, pure_eq_ok] at h
  obtain ⟨_, u, hu, e, v, hv, _, w, hw, rfl, rfl⟩ := h
  exact .step (.expect _) hu ((expression_follows hg hc hv hQ).bind
    (.step (.expect _) hw (.pure _ _)))

theorem statementsUntil_follows (hg : g.Follows) {ends : Kind → Bool} :
    (g.statementsUntil ends).FollowsBy fun c ns => ns.map (.ordinary c) := by
  intro c s ns t Q hc h hQ
  refine collect_follows nodeView ?_ _ hc h hQ.flatMap
  intro c s r t Q hc hr hQ
  simp only [bind_eq_ok, ite_eq_ok, pure_eq_ok] at hr
  obtain ⟨_, u, hu, ⟨hb, rfl, rfl⟩ | ⟨hb, x, v, hx, rfl, rfl⟩⟩ := hr
  · exact .step .peek hu (.pos hb (.pure _ _))
  · exact .step .peek hu (.neg hb ((hg.statement hc hx hQ).bind (.pure _ _)))

theorem block_follows (hg : g.Follows) : g.block.FollowsNode := by
  intro c s n t Q hc h hQ
  simp only [block, bind_eq_ok, pure_eq_ok] at h
  obtain ⟨_, u, hu, ns, v, hv, _, w, hw, rfl, rfl⟩ := h
  exact .step (.expect _) hu ((statementsUntil_follows hg hc hv hQ.parts).bind
    (.step (.expect _) hw (.pure _ _)))

/-! Functions. -/

theorem closeRest_quiet : closeRest.Quiet :=
  .bind .peek fun _ => .ite (.bind .advance fun _ => .pure _) (.reject _ _)

theorem initializer?_follows (hg : g.Follows) :
    g.initializer?.FollowsBy fun c value => value.toList.map (.ordinary c) := by
  intro c s value t Q hc h hQ
  simp only [initializer?, bind_eq_ok, ite_eq_ok, pure_eq_ok] at h
  obtain ⟨_, u, hu, ⟨hb, x, v, hx, rfl, rfl⟩ | ⟨hb, rfl, rfl⟩⟩ := h
  · exact .step (.accept _) hu (.pos hb ((hg.assignment hc hx hQ).bind (.pure _ _)))
  · exact .step (.accept _) hu (.neg hb (.pure _ _))

theorem params_follows (hg : g.Follows) :
    g.params.FollowsBy fun c ns => ns.map (.ordinary c) := by
  intro c s ns t Q hc h hQ
  simp only [params, bind_eq_ok] at h
  obtain ⟨_, u, hu, h⟩ := h
  refine .step (.expect _) hu (collect_follows nodeView ?_ _ hc h hQ.flatMap)
  intro c s r t Q hc hr hQ
  simp only [bind_eq_ok, ite_eq_ok, pure_eq_ok] at hr
  obtain ⟨_, u, hu, ⟨hb, rfl, rfl⟩ | ⟨hb, x, v, hv, _, w, hw,
    ⟨hb', name, a, ha, _, b, hclose, rfl, rfl⟩ |
    ⟨hb', name, a, ha, value, b, hvalue, _, d, hd, hr⟩⟩⟩ := hr
  · exact .step (.accept _) hu (.pos hb (.pure _ _))
  · exact .step (.accept _) hu (.neg hb (.step .peek hv (.step (.accept _) hw (.pos hb'
      (.step .ident ha (.step closeRest_quiet hclose (.pure _ _)))))))
  · have hparam : Keeps Q [.ordinary c (x.node (.param name.node value false))] := by
      obtain ⟨-, rfl, -⟩ | ⟨-, _, _, -, rfl, -⟩ := hr
      · exact hQ
      · exact hQ
    have hdefault : Keeps Q (value.toList.map (.ordinary c)) := by
      cases value with
      | none => exact .nil
      | some value => exact hparam.parts.tail
    refine .step (.accept _) hu (.neg hb (.step .peek hv (.step (.accept _) hw (.neg hb'
      (.step .ident ha ((initializer?_follows hg hc hvalue hdefault).bind
        (.step (.check _) hd ?_)))))))
    obtain ⟨hp, rfl, rfl⟩ | ⟨hp, _, e, he, rfl, rfl⟩ := hr
    · exact .pos hp (.pure _ _)
    · exact .neg hp (.step (.expect _) he (.pure _ _))

theorem functionRest_follows (hg : g.Follows) {isAsync isGenerator : Bool} :
    (g.functionRest isAsync isGenerator).FollowsBy fun c rest =>
      rest.1.map (.ordinary (c.function isAsync isGenerator))
        ++ [.ordinary (c.function isAsync isGenerator) rest.2] := by
  rintro c s ⟨ps, b⟩ t Q hc h hQ
  simp only [functionRest, within_apply, bind_eq_ok, pure_eq_ok, Prod.mk.injEq] at h
  obtain ⟨ps, u, hu, b, v, hv, ⟨rfl, rfl⟩, rfl⟩ := h
  have hc : (c.function isAsync isGenerator).dialect = .plain := hc
  exact .within rfl ((params_follows hg hc hu hQ.left).bind
    ((block_follows hg hc hv hQ.right).bind (.pure _ _)))

theorem functionName?_quiet (form : FunctionForm) : (functionName? form).Quiet :=
  .bind .peek fun _ => .ite (.bind .ident fun _ => .pure _) (.ite (.reject _ _) (.pure _))

theorem function_follows (hg : g.Follows) (form : FunctionForm) (isAsync : Bool) :
    (g.function form isAsync).FollowsNode := by
  intro c s n t Q hc h hQ
  simp only [function, bind_eq_ok, context_eq_ok, ite_eq_ok, reject_eq_ok, pure_eq_ok, and_false,
    false_or] at h
  obtain ⟨_, u, hu, isGenerator, v, hv, _, _, ⟨rfl, rfl⟩, hb, name, w, hw, ⟨ps, b⟩, x, hx,
    rfl, rfl⟩ := h
  refine .step (.expectKeyword _) hu (.step (.accept _) hv (.context rfl (.neg hb
    (.step (functionName?_quiet _) hw (.bind ?_ (.pure _ _))))))
  exact functionRest_follows hg hc hx hQ.parts.right

theorem method_follows (hg : g.Follows) (isAsync isGenerator : Bool) :
    (g.method isAsync isGenerator).FollowsNode := by
  intro c s n t Q hc h hQ
  simp only [method, bind_eq_ok, pure_eq_ok] at h
  obtain ⟨_, u, hu, ⟨ps, b⟩, v, hv, rfl, rfl⟩ := h
  exact .step .peek hu ((functionRest_follows hg hc hv hQ.parts).bind (.pure _ _))

theorem isAsyncFunction_quiet : isAsyncFunction.Quiet :=
  .context (fun _ => rfl) fun _ => .bind .peek fun _ => .bind (.peekAt _) fun _ => .pure _

theorem isArrowParams_quiet : isArrowParams.Quiet :=
  .bind .pending fun _ => .context (fun _ => rfl) fun _ => .pure _

theorem arrow_follows (hg : g.Follows) (hc : c.dialect = .plain) {ps : List Node} {start : Token}
    (h : g.arrow ps start c s = .ok n t) (hQ : Keeps Q [.ordinary c n]) :
    Keeps Q (ps.map (.ordinary c)) ∧ c.Follows Q (g.arrow ps start) s n t := by
  have hc : c.arrow.dialect = .plain := hc
  simp only [arrow, within_apply, bind_eq_ok, ite_eq_ok, pure_eq_ok] at h
  obtain ⟨_, u, hu, _, v, hv, ⟨hb, b, w, hw, rfl, rfl⟩ | ⟨hb, b, w, hw, rfl, rfl⟩⟩ := h
  · refine ⟨hQ.parts.left, .step (.expect _) hu (.within rfl (.step (.check _) hv (.pos hb ?_)))⟩
    exact (block_follows hg hc hw hQ.parts.right).bind (.pure _ _)
  · refine ⟨hQ.parts.left, .step (.expect _) hu (.within rfl (.step (.check _) hv (.neg hb ?_)))⟩
    exact (hg.assignment hc hw hQ.parts.right).bind (.pure _ _)

/-! Keys and properties. -/

theorem numberLiteral_quiet (x : Token) (raw : String) : (numberLiteral x raw).Quiet := by
  unfold numberLiteral
  split
  · exact .pure _
  · exact .fail _

theorem checkAccessor_quiet (accessor : Option Accessor) (function : Node) :
    (checkAccessor accessor function).Quiet := by
  unfold checkAccessor
  rcases accessor with _ | _ | _
  · exact .pure _
  · cases function.params with
    | nil => exact .pure _
    | cons => exact .report _ _
  · cases function.params with
    | nil => exact .ite (.bind (.report _ _) fun _ => .pure _) (.pure _)
    | cons =>
      exact .ite (.bind (.report _ _) fun _ => .ite (.report _ _) (.pure _))
        (.ite (.report _ _) (.pure _))

theorem propertyKey_follows (hg : g.Follows) :
    g.propertyKey.FollowsBy fun c k => [.key k.computed c k.node] := by
  refine FollowsBy.step .peek fun x => ?_
  split
  · intro c s k t Q hc h hQ
    simp only [bind_eq_ok, pure_eq_ok] at h
    obtain ⟨_, v, hv, key, w, hw, _, y, hy, rfl, rfl⟩ := h
    exact .step .advance hv ((hg.assignment hc hw hQ).bind (.step (.expect _) hy (.pure _ _)))
  · exact FollowsBy.of_quiet (.bind .advance fun _ =>
      .bind (numberLiteral_quiet _ _) fun _ => .pure _)
  · exact FollowsBy.of_quiet (.bind .advance fun _ => .pure _)
  · exact FollowsBy.of_quiet (.bind .propertyWord fun _ => .pure _)

theorem asyncStar_quiet : asyncStar.Quiet :=
  .context (fun _ => rfl) fun _ => .ite (.accept _) (.pure _)

theorem propertyAccessor?_quiet : propertyAccessor?.Quiet :=
  .bind (.peekAt _) fun _ => .ite (.pure _) (.bind (.acceptKind _) fun _ => .ite (.pure _)
    (.bind (.acceptKind _) fun _ => .ite (.pure _) (.pure _)))

theorem propertyModifiers_quiet : propertyModifiers.Quiet :=
  .context (fun _ => rfl) fun _ => .bind .peek fun _ => .bind (.peekAt _) fun _ =>
    .ite (.bind .advance fun _ => .bind asyncStar_quiet fun _ => .pure _)
      (.bind (.accept _) fun _ => .ite (.pure _)
        (.bind propertyAccessor?_quiet fun _ => .pure _))

theorem methodProperty_follows (hg : g.Follows) (hc : c.dialect = .plain) {start : Token}
    {k : PropertyKey} {m : Modifiers} (h : g.methodProperty start k m c s = .ok n t)
    (hQ : Keeps Q [.ordinary c n]) :
    Keeps Q [.key k.computed c k.node] ∧ c.Follows Q (g.methodProperty start k m) s n t := by
  simp only [methodProperty, bind_eq_ok, pure_eq_ok] at h
  obtain ⟨value, u, hu, _, v, hv, rfl, rfl⟩ := h
  refine ⟨hQ.parts.head, (method_follows hg _ _ hc hu hQ.parts.tail).bind ?_⟩
  exact .step (checkAccessor_quiet _ _) hv (.pure _ _)

theorem plainProperty_follows (hg : g.Follows) (hc : c.dialect = .plain) {start keyToken : Token}
    {before : List Token} {k : PropertyKey}
    (h : g.plainProperty start keyToken before k c s = .ok n t) (hQ : Keeps Q [.ordinary c n]) :
    Keeps Q [.key k.computed c k.node] ∧
      c.Follows Q (g.plainProperty start keyToken before k) s n t := by
  simp only [plainProperty, bind_eq_ok, ite_eq_ok, unexpectedNext_eq_ok, and_false, or_false,
    pure_eq_ok] at h
  obtain ⟨_, u, hu, ⟨hb, value, v, hv, rfl, rfl⟩ | ⟨hb, hi, _, v, hv, i, w, hw, rfl, rfl⟩⟩ := h
  · refine ⟨hQ.parts.head, .step (.accept _) hu (.pos hb ?_)⟩
    exact (hg.assignment hc hv hQ.parts.tail).bind (.pure _ _)
  · have hk : k.computed = false := by
      simp only [Bool.and_eq_true, Bool.not_eq_true'] at hi
      exact hi.1.2
    refine ⟨hk ▸ hQ.parts.head, .step (.accept _) hu (.neg hb (.pos hi ?_))⟩
    exact .step (.restore _) hv (.step .ident hw (.pure _ _))

theorem property_follows (hg : g.Follows) : g.property.FollowsNode := by
  intro c s n t Q hc h hQ
  simp only [property, bind_eq_ok, ite_eq_ok, pure_eq_ok] at h
  obtain ⟨_, u, hu, _, v, hv, ⟨hb, value, w, hw, rfl, rfl⟩ | ⟨hb, m, w, hw, _, _, hx, _, _, hy,
    k, z, hz, _, _, hparams, h⟩⟩ := h
  · exact .step .peek hu (.step (.accept _) hv (.pos hb
      ((hg.assignment hc hw hQ.parts).bind (.pure _ _))))
  · refine .step .peek hu (.step (.accept _) hv (.neg hb (.step propertyModifiers_quiet hw
      (.step .peek hx (.step .pending hy ?_)))))
    rcases h with ⟨hm, h⟩ | ⟨hm, h⟩
    · obtain ⟨hk, hrest⟩ := methodProperty_follows hg hc h hQ
      exact (propertyKey_follows hg hc hz hk).bind (.step (.check _) hparams (.pos hm hrest))
    · obtain ⟨hk, hrest⟩ := plainProperty_follows hg hc h hQ
      exact (propertyKey_follows hg hc hz hk).bind (.step (.check _) hparams (.neg hm hrest))

theorem object_follows (hg : g.Follows) : g.object.FollowsNode := by
  intro c s n t Q hc h hQ
  simp only [object, bind_eq_ok, pure_eq_ok] at h
  obtain ⟨_, u, hu, ns, v, hv, rfl, rfl⟩ := h
  have hQ : Keeps Q (ns.map (.ordinary c)) := hQ.parts
  have hproperties := separated_follows (property_follows hg) _ _ hc hv hQ.flatMap
  exact .step (.expect _) hu (hproperties.bind (.pure _ _))

end JsClass.Grammar
