import JsClass.Proofs.Edition.Expressions
import JsClass.Proofs.Sequel.Members

/-! Expressions, from atoms outward. -/
namespace JsClass.Sequel

open JsClass.Parser

variable {q : Sequel} {g g' : Grammar} {c : Context} {s t u : State} {S : Site}

theorem spreadable (hg : q.Grammars g g') : q.Takes S g.spreadable g'.spreadable :=
  .peek fun _ => .accept_ite nofun (.bind hg.assignment fun _ => .done) hg.assignment

theorem arguments (hg : q.Grammars g g') : q.Takes .anywhere g.arguments g'.arguments :=
  separated nofun hg.turns (spreadable hg).inside

theorem element (hg : q.Grammars g g') : q.Steady S g.element g'.element :=
  .look (.check nofun) fun _ => .ite (fun _ => .done) fun _ => .bind (spreadable hg) fun _ => .done

theorem array (hg : q.Grammars g g') : q.Takes S g.array g'.array :=
  .take (.expect _) fun _ => .map (separated nofun hg.turns (element hg).inside)

theorem dotProperty : q.Takes S Grammar.dotProperty Grammar.dotProperty :=
  .peek fun _ => .context fun _ => .ite
    (fun _ => .take .privateName fun _ => .bind (.onScope _) fun _ => .done)
    fun _ => .take .propertyWord fun _ => .done

theorem subscript (hg : q.Grammars g g') (calls : Bool) (base : Node) :
    q.Steady S (g.subscript calls base) (g'.subscript calls base) := by
  refine .glance (fun z => ?_) fun w z hw hz => ?_
  · split
    · next hz => exact .advance (by simp [hz]) fun _ => .bind dotProperty fun _ => .done
    · next hz =>
      exact .advance (by simp [hz]) fun _ => .bind (expression hg) fun _ =>
        .bind (.expect _) fun _ => .done
    · next hz =>
      exact .ite (fun _ => .advance (by simp [hz]) fun _ => .bind (arguments hg) fun _ => .done)
        fun _ => .done
    · exact .done
  · rcases hz with hz | hz <;> rw [hw, hz] <;> exact .done

theorem subscripts (hg : q.Grammars g g') (calls : Bool) (base : Node) :
    q.Steady .anywhere (g.subscripts calls base) (g'.subscripts calls base) :=
  extend hg.turns (fun _ => subscript hg calls _) base

theorem newExpression (hg : q.Grammars g g') : q.Takes S g.newExpression g'.newExpression :=
  .take (.expectKeyword _) fun _ => .peek fun _ => .ite (fun _ => .reject _ _) fun _ =>
    .take hg.atom.anyplace fun _ => .bind (subscripts hg _ _) fun _ =>
      .accept_ite nofun (.bind (arguments hg) fun _ => .done) .done

/-! Atoms. -/

theorem superExpression : q.Takes S Grammar.superExpression Grammar.superExpression := by
  refine .take (.expectKeyword _) fun _ => .context fun _ => .glance (T := fun _ => False)
    (fun z => ?_) fun w z hw hz => ?_
  · split
    · exact .ite (fun _ => .reject _ _) fun _ => .ite (fun _ => .reject _ _) fun _ => .done
    · exact .ite (fun _ => .reject _ _) fun _ => .done
    · exact .ite (fun _ => .reject _ _) fun _ => .done
    · exact .unexpected _
  · rw [hw]
    exact .unexpected _

theorem isAsyncFunction : q.Looks 0 Grammar.isAsyncFunction Grammar.isAsyncFunction := by
  refine .context fun d => .glance (fun z => .test (p := pure false) (fun w hw => ?_)
    (fun _ => .pure _) 1) fun w z hw hz => ?_
  · have hfunction : (w.kind == .keyword .function_) = false := by
      rcases hw with hw | hw <;> simp [hw]
    simp only [hfunction, Bool.and_false, Bool.false_and]
  · have hw : (w.kind == .name "async") = false := by simp [hw]
    have hz : (z.kind == .name "async") = false := by rcases hz with hz | hz <;> simp [hz]
    simp only [hw, hz, Bool.and_false, Bool.false_and]
    exact fun _ _ _ => ⟨false, rfl, fun _ => rfl⟩

/-- The word `async` is there where it is taken. -/
theorem asyncChoice (hg : q.Grammars g g') (form : FunctionForm) {e : Prop} {p p' : Parser Node}
    (hp : q.Runs .anywhere (fun _ => 0) (fun _ => True) e p p') :
    q.Runs S (fun _ => 0) (fun _ => True) e
      (do
        if ← Grammar.isAsyncFunction then
          let _ ← advance
          g.function form true
        else p)
      (do
        if ← Grammar.isAsyncFunction then
          let _ ← advance
          g'.function form true
        else p') := by
  refine .look isAsyncFunction fun b => .ite (fun _ => ?_) fun _ => hp.anyplace
  exact .inner .advance_inner fun _ => (function hg form true).ends

theorem nameExpression (hg : q.Grammars g g') : q.Takes S g.nameExpression g'.nameExpression := by
  refine .peek fun start => asyncChoice hg .expression (.take .ident fun name =>
    .glance (T := fun _ => False) (fun _ => ?_) fun w z hw hz => ?_)
  · exact .ite (fun _ => (arrow hg _ _).steady) fun _ => .done
  · rw [if_neg (by simp [hw]), if_neg (by rcases hz with hz | hz <;> simp [hz])]
    exact .done

/-- What the partner of a bracket leaves is kept, whatever stands behind it. -/
theorem afterPartner_append {ts : List Token} {depth : Nat}
    (h : Grammar.afterPartner depth ts ≠ []) (more : List Token) :
    Grammar.afterPartner depth (ts ++ more) = Grammar.afterPartner depth ts ++ more := by
  induction ts generalizing depth with
  | nil => exact absurd rfl h
  | cons z ts ih =>
    rw [List.cons_append]
    unfold Grammar.afterPartner at h ⊢
    split_ifs at h ⊢ with hopen hclose hdepth
    · exact ih h
    · rfl
    · exact ih h
    · exact ih h

/-- A token that makes the parentheses before it the parameters of an arrow. -/
def isArrow (z : Token) : Bool := z.kind == .punct .fatArrow && !z.newlineBefore

theorem isArrow_end {z : Token} (hz : z.kind.EndsStatement) : isArrow z = false := by
  rcases hz with hz | hz <;> simp [isArrow, hz]

/-- Both runs take a parenthesis for the same: its partner is among the tokens of the shorter
one. -/
theorem isArrow_afterPartner (hg : q.Grammars g g') (hc : c.finish.kind = .eof)
    (h : isArrow ((Grammar.afterPartner 0 s.pending).headD c.finish) = true ∨
      ∃ n t, g.parenthesized c s = .ok n t) :
    isArrow ((Grammar.afterPartner 0 (q.state s).pending).headD q.finish) =
      isArrow ((Grammar.afterPartner 0 s.pending).headD c.finish) := by
  rcases h with harrow | ⟨n, t, hparen⟩
  · cases hrest : Grammar.afterPartner 0 s.pending with
    | nil =>
      rw [hrest, List.headD_nil, isArrow_end (Or.inl hc)] at harrow
      cases harrow
    | cons z rest =>
      rw [state, afterPartner_append (by simp [hrest]), hrest]
      rfl
  · have hpartner := Grammar.afterPartner_parenthesized hg.nests hc hparen
    have hpending := hpartner []
    rw [List.append_nil, List.append_nil] at hpending
    rw [state, hpartner, hpending]
    exact drop_test (k := 0) (s := t) (fun _ => isArrow_end) hc (Nat.zero_le _)

theorem parenExpression (hg : q.Grammars g g') :
    q.Takes S g.parenExpression g'.parenExpression := by
  refine .peek fun z => ?_
  intro c s n t hc _ h
  have h : (if isArrow ((Grammar.afterPartner 0 s.pending).headD c.finish) then
      (do g.arrow (← g.params) z : Parser Node) else g.parenthesized) c s = .ok n t := h
  show q.Continues _ _ _ _ _ _
    ((if isArrow ((Grammar.afterPartner 0 (q.state s).pending).headD q.finish) then
      (do g'.arrow (← g'.params) z : Parser Node) else g'.parenthesized) (q.context c) (q.state s))
  rw [isArrow_afterPartner hg hc]
  · refine .ite h (fun _ h => ?_) fun _ h => parenthesized hg (S := .anywhere) hc trivial h
    exact Runs.take (S := .anywhere) (params hg) (fun ps => arrow hg ps z) hc trivial h
  · rcases ite_eq_ok.1 h with ⟨harrow, -⟩ | ⟨-, hparen⟩
    · exact Or.inl harrow
    · exact Or.inr ⟨n, t, hparen⟩

theorem atomRule (hg : q.Grammars g g') : q.Takes S g.atomRule g'.atomRule := by
  refine .peek fun z => ?_
  split
  · exact superExpression
  · next hz => exact .advance (by simp [hz]) fun _ => .done
  · exact nameExpression hg
  · next hz => exact .advance (by simp [hz]) fun _ => numberLiteral _ _
  · next hz => exact .advance (by simp [hz]) fun _ => .done
  · next hz => exact .advance (by simp [hz]) fun _ => .done
  · next hz => exact .advance (by simp [hz]) fun _ => .done
  · next hz => exact .advance (by simp [hz]) fun _ => .done
  · exact parenExpression hg
  · exact array hg
  · exact object hg
  · exact function hg _ _
  · exact class_ hg _
  · exact newExpression hg
  · exact .unexpected _

theorem subscriptedRule (hg : q.Grammars g g') : q.Takes S g.subscriptedRule g'.subscriptedRule :=
  .take (atomRule hg) fun _ => .ite (fun _ => .done) fun _ => subscripts hg _ _

/-! Operators. -/

theorem checkTarget (n : Node) : q.Steady S (Grammar.checkTarget n) (Grammar.checkTarget n) :=
  .ite (fun _ => .done) fun _ => .reject _ _

theorem postfixUpdate (operand : Node) :
    q.Steady S (Grammar.postfixUpdate operand) (Grammar.postfixUpdate operand) := by
  refine .glance (fun z => ?_) fun w z hw hz => ?_
  · split
    · next op hop =>
      refine .ite (fun _ => .done) fun _ => ?_
      unfold Grammar.checkTarget
      split
      · exact .advance (Kind.ne_eof hop rfl) fun _ => .done
      · exact .reject _ _
    · exact .done
  · rcases hz with hz | hz <;> rw [hw, hz] <;> exact .done

theorem checkDelete (z : Token) (operand : Node) :
    q.Steady S (Grammar.checkDelete z operand) (Grammar.checkDelete z operand) :=
  .context fun _ => .ite (fun _ => .reject _ _) fun _ => .ite (fun _ => .reject _ _) fun _ => .done

theorem unaryOperator (hg : q.Grammars g g') (z : Token) (op : UnaryOp) :
    q.Steady .anywhere (g.unaryOperator z op) (g'.unaryOperator z op) :=
  .bind hg.unary fun _ => .ite (fun _ => .bind (checkDelete _ _) fun _ => .done) fun _ => .done

theorem prefixUpdate (hg : q.Grammars g g') (z : Token) (op : UpdateOp) :
    q.Steady .anywhere (g.prefixUpdate z op) (g'.prefixUpdate z op) :=
  .bind hg.unary fun _ => .bind (checkTarget _) fun _ => .done

theorem unaryRule (hg : q.Grammars g g') : q.Takes S g.unaryRule g'.unaryRule := by
  refine .peek fun z => .context fun _ => .ite (fun hb => ?_) fun _ => ?_
  · have hawait : z.kind = .name "await" := by simpa using (Bool.and_eq_true_iff.1 hb).2
    exact .advance (by simp [hawait]) fun _ => .bind hg.unary fun _ => .done
  · split
    · next op hop => exact .advance (Kind.ne_eof hop rfl) fun _ => unaryOperator hg z op
    · next op _ hop => exact .advance (Kind.ne_eof hop rfl) fun _ => prefixUpdate hg z op
    · exact .take (subscriptedRule hg) fun y => extend hg.turns (fun _ => postfixUpdate _) y

theorem climb {unary unary' : Parser Node} {turns turns' : Nat} (hturns : turns ≤ turns')
    (hu : q.Takes .anywhere unary unary') (bound : Nat) (left : Node) :
    q.Steady .anywhere (Grammar.climb unary turns bound left)
      (Grammar.climb unary' turns' bound left) := by
  induction turns generalizing turns' bound left with
  | zero => exact .fails fun _ _ _ _ h => fail_eq_ok.1 h
  | succ turns ih =>
    obtain ⟨turns', rfl⟩ := Nat.exists_eq_add_of_lt hturns
    have hrest := ih (Nat.le_add_right turns turns')
    refine .glance (fun z => ?_) fun w z hw hz => ?_
    · split
      · exact .done
      · next op hop =>
        refine .ite (fun _ => .done) fun _ => ?_
        exact .advance (Kind.ne_eof hop rfl) fun _ => .bind hu fun y =>
          .bind (hrest op.rightBound y) fun _ => hrest bound _
    · rcases hz with hz | hz <;> rw [hw, hz] <;> exact .done

theorem binaryRule (hg : q.Grammars g g') : q.Takes S g.binaryRule g'.binaryRule :=
  .take (unaryRule hg) fun y => climb hg.turns (unaryRule hg) 0 y

theorem conditionalRule (hg : q.Grammars g g') : q.Takes S g.conditionalRule g'.conditionalRule :=
  .take (binaryRule hg) fun _ => .accept_ite nofun (.bind hg.assignment fun _ =>
    .bind (.expect _) fun _ => .bind hg.assignment fun _ => .done) .done

/-- Before the end of input and before a semicolon, nothing is yielded. -/
theorem yieldExpression (hg : q.Grammars g g') :
    q.Takes .filled g.yieldExpression g'.yieldExpression := by
  refine .take .advance_filled fun y => .glance (T := fun _ => False) (fun z => ?_)
    fun w z hw hz => ?_
  · exact .ite (fun _ => .done) fun _ => .bind (.accept nofun) fun _ => .bind hg.assignment fun _ =>
      .done
  · rw [if_pos (by simp [hw, Grammar.endsYield]),
      if_pos (by rcases hz with hz | hz <;> simp [hz, Grammar.endsYield])]
    exact .done

theorem assignmentRule (hg : q.Grammars g g') : q.Takes S g.assignmentRule g'.assignmentRule := by
  refine .checkKind (by simp [Kind.EndsStatement]) fun b => .context fun _ => .ite (fun hb => ?_)
    fun _ => .take (conditionalRule hg) fun target => .glance (T := fun _ => False) (fun z => ?_)
      fun w z hw hz => ?_
  · refine (yieldExpression hg).site fun c s hyield => ?_
    rw [Site.filled, hyield (Bool.and_eq_true_iff.1 hb).2]
    simp
  · split
    · exact .done
    · next op hop =>
      unfold Grammar.checkTarget
      split
      · exact .advance (Kind.ne_eof hop rfl) fun _ => .bind hg.assignment fun _ => .done
      · exact .reject _ _
  · rcases hz with hz | hz <;> rw [hw, hz] <;> exact .done

theorem expressionRule (hg : q.Grammars g g') : q.Takes S g.expressionRule g'.expressionRule :=
  commaExpression hg.turns (assignmentRule hg)

end JsClass.Sequel
