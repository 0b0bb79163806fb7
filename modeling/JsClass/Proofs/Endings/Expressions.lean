import JsClass.Proofs.BracketNesting
import JsClass.Proofs.Edition.Expressions
import JsClass.Proofs.Endings.Members

/-! Expressions, from atoms outward. -/
namespace JsClass.Endings

open JsClass.Parser

variable {q : Endings} {g : Grammar} {c : Context} {s t u : State} {S : Site}

theorem spreadable (hg : q.Keeps g) : q.Takes S g.spreadable :=
  .peek fun _ => .accept_ite (by decide) (.bind hg.assignment fun _ => .done) hg.assignment

theorem arguments (hg : q.Keeps g) : q.Takes .anywhere g.arguments :=
  separated nofun (spreadable hg).inside

theorem element (hg : q.Keeps g) : q.Steady S g.element :=
  .look (.check (by decide)) fun _ => .ite (fun _ => .done) fun _ => .bind (spreadable hg) fun _ =>
    .done

theorem array (hg : q.Keeps g) : q.Takes S g.array :=
  .take (.expect nofun) fun _ => .map (separated nofun (element hg).inside)

theorem dotProperty : q.Takes S Grammar.dotProperty :=
  .peek fun _ => .context (fun _ => rfl) fun _ => .ite
    (fun _ => .take .privateName fun _ => .bind (.onScope _) fun _ => .done)
    fun _ => .take .propertyWord fun _ => .done

theorem subscript (hg : q.Keeps g) (calls : Bool) (base : Node) :
    q.Steady S (g.subscript calls base) := by
  refine .glance (fun z => ?_) fun w z hw hz => ?_
  · split
    · next hz =>
      exact .advance (by simp [hz]) (by simp [hz]) fun _ => .bind dotProperty fun _ => .done
    · next hz =>
      exact .advance (by simp [hz]) (by simp [hz]) fun _ => .bind (expression hg) fun _ =>
        .bind (.expect nofun) fun _ => .done
    · next hz =>
      exact .ite (fun _ => .advance (by simp [hz]) (by simp [hz]) fun _ => .bind (arguments hg)
        fun _ => .done) fun _ => .done
    · exact .done
  · rcases hw with hw | hw | hw | hw | hw <;> rcases hz with hz | hz | hz | hz | hz <;> rw [hw, hz]

theorem subscripts (hg : q.Keeps g) (calls : Bool) (base : Node) :
    q.Steady .anywhere (g.subscripts calls base) :=
  extend (fun _ => subscript hg calls _) base

theorem newExpression (hg : q.Keeps g) : q.Takes S g.newExpression :=
  .take (.expectKeyword _) fun _ => .peek fun _ => .ite (fun _ => .reject _ _) fun _ =>
    .take hg.atom.anyplace fun _ => .bind (subscripts hg _ _) fun _ =>
      .accept_ite (by decide) (.bind (arguments hg) fun _ => .done) .done

/-! Atoms. -/

theorem superExpression : q.Takes S Grammar.superExpression := by
  refine .take (V := fun _ => False) (.expectKeyword _) fun _ => .context (fun _ => rfl) fun _ =>
    .demand (fun z => ?_) fun z hz c s b t h => ?_
  · split
    · exact .ite (fun _ => .reject _ _) fun _ => .ite (fun _ => .reject _ _) fun _ => .done
    · exact .ite (fun _ => .reject _ _) fun _ => .done
    · exact .ite (fun _ => .reject _ _) fun _ => .done
    · exact .unexpected _
  · rcases hz with hz | hz | hz | hz | hz <;> rw [hz] at h <;> exact unexpected_eq_ok.1 h

theorem isAsyncFunction : q.Looks 0 Grammar.isAsyncFunction := by
  refine .context (fun _ => rfl) fun d => .glance (b := false) (fun z =>
    .test (p := pure false) (fun w hw => ?_) (fun _ => .pure _) 1) fun z hz c s => ?_
  · have hfunction : (w.kind == .keyword .function_) = false := by
      rcases hw with hw | hw | hw | hw | hw <;> simp [hw]
    simp only [hfunction, Bool.and_false, Bool.false_and]
  · have hz : (z.kind == .name "async") = false := by
      rcases hz with hz | hz | hz | hz | hz <;> simp [hz]
    simp only [hz, Bool.and_false, Bool.false_and]
    rfl

/-- The word `async` is there where it is taken. -/
theorem asyncChoice (hg : q.Keeps g) (form : FunctionForm) {m : Node → Nat} {e : Node → Prop}
    {p : Parser Node} (hp : q.Runs .anywhere m (fun _ => True) e p) :
    q.Runs S m (fun _ => True) e
      (do
        if ← Grammar.isAsyncFunction then
          let _ ← advance
          g.function form true
        else p) := by
  refine .look isAsyncFunction fun b => .ite (fun _ => ?_) fun _ => hp.anyplace
  exact .seq .advance_inner (fun _ => (function hg form true).inside.ends)
    (fun _ _ => Or.inr ⟨trivial, Nat.le_add_left 1 _⟩) fun _ _ _ => Or.inr trivial

theorem nameExpression (hg : q.Keeps g) : q.Takes S g.nameExpression := by
  refine .peek fun start => asyncChoice hg .expression (.take (V := fun _ => False) .ident
    fun name => .glance (fun _ => ?_) fun w z hw hz => ?_)
  · exact .ite (fun _ => (arrow hg _ _).steady) fun _ => .done
  · rw [if_neg (by rcases hw with hw | hw | hw | hw | hw <;> simp [hw]),
      if_neg (by rcases hz with hz | hz | hz | hz | hz <;> simp [hz])]

/-- The partner of a parenthesis that is closed before the ending is found in both runs. -/
theorem afterPartner_state (hc : c.finish.kind = .eof) (hopen : (c.next s).kind = .punct .lparen)
    (h : s.skip.Shuts t) (hleft : q.Left 0 t) :
    Grammar.afterPartner 0 s.pending = t.pending ∧
      Grammar.afterPartner 0 (q.state s).pending = (q.state t).pending := by
  obtain ⟨inner, y, hinner, hnested, hy⟩ := h
  obtain ⟨zs, hzs, -⟩ := left_iff.1 hleft
  have hcloser : (c.next s).kind.closer? = some .rparen := by rw [hopen]; rfl
  have hs : s.pending = c.next s :: (inner ++ y :: t.pending) := by
    rw [← hinner]
    exact Context.pending_eq hc (by simp [hopen])
  have hsecond : s.pending = (c.next s :: (inner ++ y :: zs)) ++ q.first := by simp [hs, hzs]
  rw [state_eq _ hsecond, state_eq zs hzs, hs]
  refine ⟨afterPartner_nested hcloser hy hnested _, ?_⟩
  simpa using afterPartner_nested hcloser hy hnested (zs ++ q.second)

theorem isArrow_ends {z : Token} (hz : z.kind.EndsExpression) : z.isArrow = false := by
  rcases hz with hz | hz | hz | hz | hz <;> simp [Token.isArrow, hz]

theorem parenExpression (hg : q.Keeps g) : q.Takes S g.parenExpression := by
  refine .peek fun z => ?_
  intro c s n t hc _ h
  have h : (if ((Grammar.afterPartner 0 s.pending).headD c.finish).isArrow then
      (do g.arrow (← g.params) z : Parser Node) else g.parenthesized) c s = .ok n t := h
  show q.Continues _ _ _ _ _ _
    ((if ((Grammar.afterPartner 0 (q.state s).pending).headD q.finish).isArrow then
      (do g.arrow (← g.params) z : Parser Node) else g.parenthesized) (q.context c) (q.state s))
  rcases ite_eq_ok.1 h with ⟨harrow, h⟩ | ⟨hnot, h⟩
  · have hrule : q.Takes .anywhere (do g.arrow (← g.params) z) :=
      .take (params hg) fun ps => arrow hg ps z
    have hrun := hrule hc trivial h
    refine ⟨hrun.suffix, hrun.takes, hrun.last, fun hleft => ?_⟩
    obtain ⟨ps, u, hps, hbody⟩ := bind_eq_ok.1 h
    have hbody := arrow hg ps z (S := .anywhere) hc trivial hbody
    obtain ⟨hopen, hshuts⟩ := Grammar.params_shuts hg.nests hc hps
    have hmore : q.Left 1 u := hleft.succ hbody.suffix (hbody.takes trivial)
    obtain ⟨hfirst, hsecond⟩ := afterPartner_state hc hopen hshuts (hmore.mono (Nat.zero_le 1))
    have hnext : (q.state u).pending.headD q.finish = u.pending.headD c.finish := next_state hmore
    rw [hsecond, hnext, ← hfirst, if_pos harrow]
    exact hrun.resumes hleft
  · have hrun := parenthesized hg (S := .anywhere) hc trivial h
    refine ⟨hrun.suffix, hrun.takes, hrun.last, fun hleft => ?_⟩
    obtain ⟨hopen, hshuts⟩ := Grammar.parenthesized_shuts hg.nests hc h
    obtain ⟨hfirst, hsecond⟩ := afterPartner_state hc hopen hshuts hleft
    have hnext := drop_test (P := Token.isArrow) (k := 0) (fun _ => isArrow_ends) hc hleft
    have hnext : ((q.state t).pending.headD q.finish).isArrow =
        (t.pending.headD c.finish).isArrow := hnext
    rw [hsecond, hnext, ← hfirst, if_neg hnot]
    exact hrun.resumes hleft

theorem atomRule (hg : q.Keeps g) : q.Takes S g.atomRule := by
  refine .peek fun z => ?_
  split
  · exact superExpression
  · next hz => exact .advance (by simp [hz]) (by simp [hz]) fun _ => .done
  · exact nameExpression hg
  · next hz => exact .advance (by simp [hz]) (by simp [hz]) fun _ => numberLiteral _ _
  · next hz => exact .advance (by simp [hz]) (by simp [hz]) fun _ => .done
  · next hz => exact .advance (by simp [hz]) (by simp [hz]) fun _ => .done
  · next hz => exact .advance (by simp [hz]) (by simp [hz]) fun _ => .done
  · next hz => exact .advance (by simp [hz]) (by simp [hz]) fun _ => .done
  · exact parenExpression hg
  · exact array hg
  · exact object hg
  · exact function hg _ _
  · exact class_ hg _
  · exact newExpression hg
  · exact .unexpected _

theorem subscriptedRule (hg : q.Keeps g) : q.Takes S g.subscriptedRule :=
  .take (atomRule hg) fun _ => .ite (fun _ => .done) fun _ => subscripts hg _ _

/-! Operators. -/

theorem checkTarget (n : Node) : q.Steady S (Grammar.checkTarget n) :=
  .ite (fun _ => .done) fun _ => .reject _ _

theorem postfixUpdate (operand : Node) : q.Steady S (Grammar.postfixUpdate operand) := by
  refine .glance (fun z => ?_) fun w z hw hz => ?_
  · split
    · next op hop =>
      refine .ite (fun _ => .done) fun _ => ?_
      unfold Grammar.checkTarget
      split
      · exact .advance (Kind.ne_eof hop rfl) (Kind.ne_semicolon hop rfl) fun _ => .done
      · exact .reject _ _
    · exact .done
  · rcases hw with hw | hw | hw | hw | hw <;> rcases hz with hz | hz | hz | hz | hz <;>
      rw [hw, hz] <;> rfl

theorem checkDelete (z : Token) (operand : Node) : q.Steady S (Grammar.checkDelete z operand) :=
  .context (fun _ => rfl) fun _ => .ite (fun _ => .reject _ _) fun _ => .ite
    (fun _ => .reject _ _) fun _ => .done

theorem unaryOperator (hg : q.Keeps g) (z : Token) (op : UnaryOp) :
    q.Steady .anywhere (g.unaryOperator z op) :=
  .bind hg.unary fun _ => .ite (fun _ => .bind (checkDelete _ _) fun _ => .done) fun _ => .done

theorem prefixUpdate (hg : q.Keeps g) (z : Token) (op : UpdateOp) :
    q.Steady .anywhere (g.prefixUpdate z op) :=
  .bind hg.unary fun _ => .bind (checkTarget _) fun _ => .done

theorem unaryRule (hg : q.Keeps g) : q.Takes S g.unaryRule := by
  refine .peek fun z => .context (fun _ => rfl) fun _ => .ite (fun hb => ?_) fun _ => ?_
  · have hawait : z.kind = .name "await" := by simpa using (Bool.and_eq_true_iff.1 hb).2
    exact .advance (by simp [hawait]) (by simp [hawait]) fun _ => .bind hg.unary fun _ => .done
  · split
    · next op hop =>
      exact .advance (Kind.ne_eof hop rfl) (Kind.ne_semicolon hop rfl) fun _ =>
        unaryOperator hg z op
    · next op _ hop =>
      exact .advance (Kind.ne_eof hop rfl) (Kind.ne_semicolon hop rfl) fun _ => prefixUpdate hg z op
    · exact .take (subscriptedRule hg) fun y => extend (fun _ => postfixUpdate _) y

theorem climb {unary : Parser Node} {turns : Nat} (hu : q.Takes .anywhere unary) (bound : Nat)
    (left : Node) : q.Steady .anywhere (Grammar.climb unary turns bound left) := by
  induction turns generalizing bound left with
  | zero => exact .fails fun _ _ _ _ h => fail_eq_ok.1 h
  | succ turns ih =>
    refine .glance (fun z => ?_) fun w z hw hz => ?_
    · split
      · exact .done
      · next op hop =>
        refine .ite (fun _ => .done) fun _ => ?_
        exact .advance (Kind.ne_eof hop rfl) (Kind.ne_semicolon hop rfl) fun _ => .bind hu fun y =>
          .bind (ih op.rightBound y) fun _ => ih bound _
    · rcases hw with hw | hw | hw | hw | hw <;> rcases hz with hz | hz | hz | hz | hz <;>
        rw [hw, hz] <;> rfl

theorem binaryRule (hg : q.Keeps g) : q.Takes S g.binaryRule :=
  .take (unaryRule hg) fun y => climb (unaryRule hg) 0 y

theorem conditionalRule (hg : q.Keeps g) : q.Takes S g.conditionalRule :=
  .take (binaryRule hg) fun _ => .accept_ite (by decide) (.bind hg.assignment fun _ =>
    .bind (.expect nofun) fun _ => .bind hg.assignment fun _ => .done) .done

/-- Before what ends an expression, nothing is yielded. -/
theorem yieldExpression (hg : q.Keeps g) :
    q.Takes (fun c s => (c.next s).kind = .name "yield") g.yieldExpression := by
  intro c s n t hc hyield h
  have hyield : (c.next s).kind = .name "yield" := hyield
  refine Runs.advance (z := c.next s) (V := fun _ => False) (by simp [hyield]) (by simp [hyield])
    (fun y => .glance (fun z => ?_) fun w z hw hz => ?_) hc rfl h
  · exact .ite (fun _ => .done) fun _ => .bind (.accept (by decide)) fun _ =>
      .bind hg.assignment fun _ => .done
  · rw [if_pos (by rcases hw with hw | hw | hw | hw | hw <;> simp [hw, Grammar.endsYield]),
      if_pos (by rcases hz with hz | hz | hz | hz | hz <;> simp [hz, Grammar.endsYield])]

theorem assignmentRule (hg : q.Keeps g) : q.Takes S g.assignmentRule := by
  refine .checkKind (by decide) fun b => .context (fun _ => rfl) fun _ => .ite (fun hb => ?_)
    fun _ => .take (V := fun _ => False) (conditionalRule hg) fun target => .glance (fun z => ?_)
      fun w z hw hz => ?_
  · exact (yieldExpression hg).site fun c s hyield => hyield (Bool.and_eq_true_iff.1 hb).2
  · split
    · exact .done
    · next op hop =>
      unfold Grammar.checkTarget
      split
      · exact .advance (Kind.ne_eof hop rfl) (Kind.ne_semicolon hop rfl) fun _ =>
          .bind hg.assignment fun _ => .done
      · exact .reject _ _
  · rcases hw with hw | hw | hw | hw | hw <;> rcases hz with hz | hz | hz | hz | hz <;>
      rw [hw, hz] <;> rfl

theorem expressionRule (hg : q.Keeps g) : q.Takes S g.expressionRule :=
  commaExpression (assignmentRule hg)

end JsClass.Endings
