import JsClass.Proofs.Likeness.Members

/-! Expressions, from atoms outward. -/
namespace JsClass.Likeness

open JsClass.Grammar

variable {m : Matching} {L : Likeness m} {g g' : Grammar} {n n' : Node} {t t' : Token}

theorem spreadable (hg : L.Grammars g g') : L.nodes g.spreadable g'.spreadable :=
  L.bind L.peek fun _ _ ht => choose (accept _)
    (L.bind hg.assignment fun _ _ h => L.pure (ht.node (.spread h))) hg.assignment

theorem arguments (hg : L.Grammars g g') :
    L.runs (List.Forall₂ (Node.Alike m)) g.arguments g'.arguments := by
  unfold Grammar.arguments
  rw [← hg.turns]
  exact separated _ _ (spreadable hg)

theorem element (hg : L.Grammars g g') :
    L.runs (Option.Rel (Node.Alike m)) g.element g'.element :=
  choose (check _) (L.pure .none) (L.bind (spreadable hg) fun _ _ h => L.pure (.some h))

theorem array (hg : L.Grammars g g') : L.nodes g.array g'.array := by
  unfold Grammar.array
  rw [← hg.turns]
  exact L.bind (expect _) fun _ _ ht => L.bind (separated _ _ (element hg)) fun _ _ h =>
    L.pure (ht.node (.array h))

theorem dotProperty : L.nodes Grammar.dotProperty Grammar.dotProperty := by
  refine L.bind L.peek fun t t' ht => L.bind L.context fun c c' hc => ite ?_ ?_ ?_
  · rw [hc.dialect, ht.kind.congr Kind.isPrivateName fun _ _ => rfl]
  · exact L.bind privateName fun _ _ hi => step (L.use hi.word hi.pos) fun _ _ =>
      L.pure ⟨.privateName hi.word, hi.pos⟩
  · exact L.bind propertyWord fun _ _ hi => L.pure hi.node

theorem subscript (hg : L.Grammars g g') (calls : Bool) (hn : n.Alike m n') :
    L.runs (Option.Rel (Node.Alike m)) (g.subscript calls n) (g'.subscript calls n') := by
  refine L.bind L.peek fun t t' ht => ?_
  rcases ht.kind_cases with ⟨hk, hnot⟩ | ⟨w, w', hw, hw', -⟩
  · rw [← hk]
    split
    · exact step L.advance fun _ _ => L.bind dotProperty fun _ _ hp =>
        L.pure (.some (hn.wrap (.member hn hp)))
    · exact step L.advance fun _ _ => L.bind (expression hg) fun _ _ hp => step (expect _)
        fun _ _ => L.pure (.some (hn.wrap (.member hn hp)))
    · exact ite rfl (step L.advance fun _ _ => L.bind (arguments hg) fun _ _ hargs =>
        L.pure (.some (hn.wrap (.call hn hargs)))) (L.pure .none)
    · exact L.pure .none
  · simp only [hw, hw']
    exact L.pure .none

theorem subscripts (hg : L.Grammars g g') (calls : Bool) (hn : n.Alike m n') :
    L.nodes (g.subscripts calls n) (g'.subscripts calls n') := by
  unfold Grammar.subscripts
  rw [← hg.turns]
  exact extend (fun _ _ h => subscript hg calls h) _ hn

theorem newExpression (hg : L.Grammars g g') : L.nodes g.newExpression g'.newExpression := by
  refine L.bind (expectKeyword _) fun _ _ ht => L.bind L.peek fun _ _ hnext =>
    ite (hnext.is rfl) (L.reject (.same rfl rfl hnext.pos)) (L.bind hg.atom fun _ _ ha =>
      L.bind (subscripts hg false ha) fun _ _ hcallee => choose (accept _) ?_ ?_)
  · exact L.bind (arguments hg) fun _ _ hargs => L.pure (ht.node (.new_ hcallee hargs))
  · exact L.pure (ht.node (.new_ hcallee .nil))

/-! Atoms. -/

theorem superExpression : L.nodes Grammar.superExpression Grammar.superExpression := by
  refine L.bind (expectKeyword _) fun t t' ht => L.bind L.context fun c c' hc =>
    L.bind L.peek fun u u' hu => ?_
  have hsuper : L.nodes (Pure.pure (t.node .super)) (Pure.pure (t'.node .super)) :=
    L.pure (ht.node .super)
  rcases hu.kind_cases with ⟨hk, hnot⟩ | ⟨w, w', hw, hw', -⟩
  · rw [← hk]
    split
    · exact ite hc.inStaticField (L.reject (.same rfl rfl ht.pos))
        (ite hc.inPrivateMethod (L.reject (.same rfl rfl ht.pos)) hsuper)
    · exact ite hc.inStaticField (L.reject (.same rfl rfl ht.pos)) hsuper
    · exact ite hc.inStaticField (L.reject (.same rfl rfl ht.pos)) hsuper
    · exact unexpected hu
  · simp only [hw, hw']
    exact unexpected hu

theorem nameExpression (hg : L.Grammars g g') : L.nodes g.nameExpression g'.nameExpression := by
  refine L.bind L.peek fun _ _ ht => choose isAsyncFunction
    (step L.advance fun _ _ => function hg .expression true)
    (L.bind ident fun _ _ hi => L.bind L.peek fun _ _ hnext => ite ?_ ?_ (L.pure hi.node))
  · rw [hnext.is rfl, hnext.newline]
  · exact arrow hg (.cons hi.param .nil) ht

theorem parenExpression (hg : L.Grammars g g') : L.nodes g.parenExpression g'.parenExpression :=
  L.bind L.peek fun _ _ ht => choose isArrowParams
    (L.bind (params hg) fun _ _ hps => arrow hg hps ht) (parenthesized hg)

theorem atomRule (hg : L.Grammars g g') : L.nodes g.atomRule g'.atomRule := by
  refine L.bind L.peek fun t t' ht => ?_
  rcases ht.kind_cases with ⟨hk, hnot⟩ | ⟨w, w', hw, hw', -⟩
  · rw [← hk]
    split
    · exact superExpression
    · exact step L.advance fun _ _ => L.pure (ht.node .this)
    · exact nameExpression hg
    · exact step L.advance fun _ _ => numberLiteral ht _
    · exact step L.advance fun _ _ => L.pure (ht.node .string)
    · exact step L.advance fun _ _ => L.pure (ht.node .bool)
    · exact step L.advance fun _ _ => L.pure (ht.node .bool)
    · exact step L.advance fun _ _ => L.pure (ht.node .null)
    · exact parenExpression hg
    · exact array hg
    · exact object hg
    · exact function hg .expression false
    · exact class_ hg true
    · exact newExpression hg
    · exact unexpected ht
  · simp only [hw, hw']
    exact unexpected ht

theorem subscriptedRule (hg : L.Grammars g g') : L.nodes g.subscriptedRule g'.subscriptedRule :=
  L.bind (atomRule hg) fun _ _ ha => ite ha.isArrow (L.pure ha) (subscripts hg true ha)

/-! Operators. -/

theorem checkTarget (hn : n.Alike m n') :
    L.steps (Grammar.checkTarget n) (Grammar.checkTarget n') :=
  ite hn.isTarget (L.pure trivial) (L.reject (.same rfl rfl hn.pos))

theorem postfixUpdate (hn : n.Alike m n') :
    L.runs (Option.Rel (Node.Alike m)) (Grammar.postfixUpdate n) (Grammar.postfixUpdate n') := by
  refine L.bind L.peek fun t t' ht => ?_
  rw [← ht.kind.congr UpdateOp.ofKind? fun _ _ => rfl]
  split
  · exact ite ht.newline (L.pure .none) (step (checkTarget hn) fun _ _ => step L.advance fun _ _ =>
      L.pure (.some (hn.wrap (.update hn))))
  · exact L.pure .none

theorem unaryOperator (hg : L.Grammars g g') (ht : t.Alike m t') (op : UnaryOp) :
    L.nodes (g.unaryOperator t op) (g'.unaryOperator t' op) :=
  L.bind hg.unary fun _ _ hn => ite rfl
    (step (L.checkDelete ht hn) fun _ _ => L.pure (ht.node (.unary hn)))
    (L.pure (ht.node (.unary hn)))

theorem prefixUpdate (hg : L.Grammars g g') (ht : t.Alike m t') (op : UpdateOp) :
    L.nodes (g.prefixUpdate t op) (g'.prefixUpdate t' op) :=
  L.bind hg.unary fun _ _ hn => step (checkTarget hn) fun _ _ => L.pure (ht.node (.update hn))

theorem unaryRule (hg : L.Grammars g g') : L.nodes g.unaryRule g'.unaryRule := by
  refine L.bind L.peek fun t t' ht => L.bind L.context fun c c' hc => ite ?_ ?_ ?_
  · rw [hc.inAsync, ht.is rfl]
  · exact step L.advance fun _ _ => L.bind hg.unary fun _ _ h => L.pure (ht.node (.await h))
  · rw [← ht.kind.congr UnaryOp.ofKind? fun _ _ => rfl,
      ← ht.kind.congr UpdateOp.ofKind? fun _ _ => rfl]
    split
    · exact step L.advance fun _ _ => unaryOperator hg ht _
    · exact step L.advance fun _ _ => prefixUpdate hg ht _
    · rw [← hg.turns]
      exact L.bind (subscriptedRule hg) fun _ _ hn => extend (fun _ _ h => postfixUpdate h) _ hn

theorem climb {p p' : Parser Node} (hp : L.nodes p p') (turns bound : Nat) (hn : n.Alike m n') :
    L.nodes (Grammar.climb p turns bound n) (Grammar.climb p' turns bound n') := by
  induction turns generalizing bound n n' with
  | zero => exact L.exhausted
  | succ turns ih =>
    refine L.bind L.peek fun t t' ht => ?_
    rw [← ht.kind.congr BinaryOp.ofKind? fun _ _ => rfl]
    split
    · exact L.pure hn
    · refine ite_iff Iff.rfl (L.pure hn) (step L.advance fun _ _ => L.bind hp fun _ _ hright =>
        L.bind (ih _ hright) fun _ _ hright => ih _ (hn.wrap (.binary hn hright)))

theorem binaryRule (hg : L.Grammars g g') : L.nodes g.binaryRule g'.binaryRule := by
  unfold Grammar.binaryRule
  rw [← hg.turns]
  exact L.bind (unaryRule hg) fun _ _ hn => climb (unaryRule hg) _ _ hn

theorem conditionalRule (hg : L.Grammars g g') : L.nodes g.conditionalRule g'.conditionalRule :=
  L.bind (binaryRule hg) fun _ _ hc => choose (accept _)
    (L.bind hg.assignment fun _ _ ht => step (expect _) fun _ _ => L.bind hg.assignment
      fun _ _ he => L.pure (hc.wrap (.ternary hc ht he)))
    (L.pure hc)

theorem yieldExpression (hg : L.Grammars g g') :
    L.nodes g.yieldExpression g'.yieldExpression := by
  refine L.bind L.advance fun t t' ht => L.bind L.peek fun u u' hu => ite ?_
    (L.pure (ht.node (.yield .none))) (L.bind (accept _) ?_)
  · rw [hu.newline, hu.kind.congr endsYield fun _ _ => rfl]
  · rintro delegate _ rfl
    exact L.bind hg.assignment fun _ _ h => L.pure (ht.node (.yield (.some h)))

theorem assignmentRule (hg : L.Grammars g g') : L.nodes g.assignmentRule g'.assignmentRule := by
  refine L.bind (checkWord _) ?_
  rintro isYield _ rfl
  refine L.bind L.context fun c c' hc => ite (by rw [hc.inGenerator]) (yieldExpression hg)
    (L.bind (conditionalRule hg) fun _ _ hn => L.bind L.peek fun t t' ht => ?_)
  rw [← ht.kind.congr AssignOp.ofKind? fun _ _ => rfl]
  split
  · exact L.pure hn
  · exact step (checkTarget hn) fun _ _ => step L.advance fun _ _ => L.bind hg.assignment
      fun _ _ hv => L.pure (hn.wrap (.assign hn hv))

theorem expressionRule (hg : L.Grammars g g') : L.nodes g.expressionRule g'.expressionRule := by
  unfold Grammar.expressionRule
  rw [← hg.turns]
  exact commaExpression (assignmentRule hg) _

end JsClass.Likeness
