import JsClass.Proofs.Edition.Expressions
import JsClass.Proofs.Safety.Members

/-! Expressions, from atoms outward. -/
namespace JsClass.Grammar

open JsClass.Parser

variable {m : Nat} {g : Grammar} {S : Site}

theorem spreadable_safe (hg : g.Safe m) : g.spreadable.Takes m .anywhere :=
  .glance fun _ => .accept (.bind hg.assignment fun _ => .done) hg.assignment

theorem arguments_safe (hg : g.Safe m) : g.arguments.Steady m .anywhere :=
  separated_safe (spreadable_safe hg).steady hg.turns

theorem element_safe (hg : g.Safe m) : g.element.Steady m .anywhere :=
  .check _ fun _ => .ite (fun _ => .done) fun _ => .bind (spreadable_safe hg) fun _ => .done

theorem array_safe (hg : g.Safe m) : g.array.Takes (m + 1) .anywhere :=
  .first (.expect _) fun _ => .bind (separated_safe (element_safe hg) hg.turns) fun _ => .done

theorem dotProperty_safe : dotProperty.Steady m .anywhere := by
  refine .glance fun _ => .context fun _ => .ite (fun _ => ?_) fun _ => ?_
  · exact .bind .privateName fun _ =>
      .bind (.onScope fun _ s _ => s.scope.use_depth _ _) fun _ => .done
  · exact .bind .propertyWord fun _ => .done

/-- A subscript that is there starts with a token of its own. -/
theorem subscript_safe (hg : g.Safe m) (calls : Bool) (base : Node) :
    (g.subscript calls base).Safe m .anywhere (·.isSome) := by
  refine .fewer (.peek fun x => ?_)
  split
  · next hx =>
    exact .advance (by simp [hx]) fun _ => .bind dotProperty_safe fun _ => .done
  · next hx =>
    exact .advance (by simp [hx]) fun _ => .bind (expression_safe hg) fun _ =>
      .bind (.expect _) fun _ => .done
  · next hx =>
    refine .ite (fun _ => ?_) fun _ => .pure nofun
    exact .advance (by simp [hx]) fun _ => .bind (arguments_safe hg) fun _ => .done
  · exact .pure nofun

theorem subscripts_safe (hg : g.Safe m) (calls : Bool) (base : Node) :
    (g.subscripts calls base).Steady m .anywhere :=
  extend_safe (subscript_safe hg calls) hg.turns base

theorem newExpression_safe (hg : g.Safe m) : g.newExpression.Takes (m + 1) .anywhere :=
  .first (.expectKeyword _) fun _ => .glance fun _ => .ite (fun _ => .reject _ _) fun _ =>
    .bind hg.atom fun _ => .bind (subscripts_safe hg _ _) fun _ =>
      .accept (.bind (arguments_safe hg) fun _ => .done) .done

/-! Atoms. -/

theorem superExpression_safe : superExpression.Takes m .anywhere := by
  refine .take (V := fun _ => False) (.expectKeyword _) fun _ =>
    .context fun _ => .glance fun _ => ?_
  split
  · exact .ite (fun _ => .reject _ _) fun _ => .ite (fun _ => .reject _ _) fun _ => .done
  · exact .ite (fun _ => .reject _ _) fun _ => .done
  · exact .ite (fun _ => .reject _ _) fun _ => .done
  · exact .unexpected _

/-- The choice between an asynchronous function and what else may start with its word. -/
theorem asyncChoice_safe (hg : g.Safe m) (form : FunctionForm) {p : Parser Node}
    (hp : p.Takes (m + 1) .anywhere) :
    (do
      if ← isAsyncFunction then
        let _ ← advance
        g.function form true
      else p : Parser Node).Takes (m + 1) .anywhere :=
  .look (fun _ _ => ⟨_, rfl⟩) fun _ => .ite
    (fun _ => .bind .advance_steady fun _ => function_safe hg form true) fun _ => hp

theorem nameExpression_safe (hg : g.Safe m) : g.nameExpression.Takes (m + 1) .anywhere := by
  rw [nameExpression_eq]
  exact .glance fun x => asyncChoice_safe hg .expression (.first .ident fun _ => .glance fun _ =>
    .ite (fun _ => (arrow_safe hg _ x).fewer.steady) fun _ => .done)

theorem parenExpression_safe (hg : g.Safe m) : g.parenExpression.Takes (m + 1) .anywhere :=
  .glance fun x => .look (fun _ _ => ⟨_, rfl⟩) fun _ => .ite
    (fun _ => .first (params_safe hg) fun ps => (arrow_safe hg ps x).fewer)
    fun _ => parenthesized_safe hg

theorem atomRule_safe (hg : g.Safe m) : g.atomRule.Takes (m + 1) .anywhere := by
  refine .peek fun x => ?_
  split
  · exact superExpression_safe.anyplace
  · next hx => exact .advance (by simp [hx]) fun _ => .done
  · exact (nameExpression_safe hg).anyplace
  · next hx => exact number_safe hx
  · next hx => exact .advance (by simp [hx]) fun _ => .done
  · next hx => exact .advance (by simp [hx]) fun _ => .done
  · next hx => exact .advance (by simp [hx]) fun _ => .done
  · next hx => exact .advance (by simp [hx]) fun _ => .done
  · exact (parenExpression_safe hg).anyplace
  · exact (array_safe hg).anyplace
  · exact (object_safe hg).anyplace
  · exact (function_safe hg _ _).anyplace
  · exact (class_safe hg _).anyplace
  · exact (newExpression_safe hg).anyplace
  · exact .unexpected _

theorem subscriptedRule_safe (hg : g.Safe m) : g.subscriptedRule.Takes (m + 1) .anywhere :=
  .first (atomRule_safe hg) fun _ => .ite (fun _ => .done) fun _ => subscripts_safe hg _ _

/-! Operators. -/

/-- The check of a target stays where it is. -/
theorem checkTarget_safe {f : Unit → Parser β} {T : β → Prop} (n : Node)
    (hf : (f ()).Safe m S T) : (checkTarget n >>= f).Safe m S T := by
  unfold checkTarget
  split
  · exact hf
  · exact .reject _ _

theorem postfixUpdate_safe (operand : Node) :
    (postfixUpdate operand).Safe m .anywhere (·.isSome) := by
  refine .fewer (.peek fun x => ?_)
  split
  · next op hop =>
    refine .ite (fun _ => .pure nofun) fun _ => checkTarget_safe _ ?_
    exact .advance (Kind.ne_eof hop rfl) fun _ => .done
  · exact .pure nofun

theorem checkDelete_safe (x : Token) (operand : Node) : (checkDelete x operand).Steady m S :=
  .context fun _ => .ite (fun _ => .reject _ _) fun _ => .ite (fun _ => .reject _ _) fun _ => .done

theorem unaryOperator_safe (hg : g.Safe m) (x : Token) (op : UnaryOp) :
    (g.unaryOperator x op).Steady m .anywhere :=
  .bind hg.unary fun _ => .ite (fun _ => .bind (checkDelete_safe _ _) fun _ => .done) fun _ => .done

theorem prefixUpdate_safe (hg : g.Safe m) (x : Token) (op : UpdateOp) :
    (g.prefixUpdate x op).Steady m .anywhere :=
  .bind hg.unary fun _ => checkTarget_safe _ .done

theorem unaryRule_safe (hg : g.Safe m) : g.unaryRule.Takes (m + 1) .anywhere := by
  refine .peek fun x => .context fun _ => .ite (fun hb => ?_) fun _ => ?_
  · have hawait : x.kind = .name "await" := by simpa using (Bool.and_eq_true_iff.1 hb).2
    exact .advance (by simp [hawait]) fun _ => .bind hg.unary fun _ => .done
  · split
    · next op hop =>
      exact .advance (Kind.ne_eof hop rfl) fun _ => unaryOperator_safe hg x op
    · next op _ hop =>
      exact .advance (Kind.ne_eof hop rfl) fun _ => prefixUpdate_safe hg x op
    · exact .anyplace (.first (subscriptedRule_safe hg) fun y =>
        extend_safe postfixUpdate_safe hg.turns y)

/-- An operator is taken in every turn that goes on, on both sides. -/
theorem climb_safe {unary : Parser Node} {turns : Nat} (hu : unary.Takes m .anywhere)
    (hm : m ≤ turns) (bound : Nat) (left : Node) :
    (climb unary turns bound left).Steady m .anywhere := by
  induction turns generalizing m bound left with
  | zero =>
    obtain rfl := Nat.le_zero.1 hm
    exact .zero
  | succ turns ih =>
    cases m with
    | zero => exact .zero
    | succ m =>
      have hrest := ih hu.fewer (Nat.le_of_succ_le_succ hm)
      refine .peek fun x => ?_
      split
      · exact .done
      · next op hop =>
        refine .ite (fun _ => .done) fun _ => ?_
        exact .advance (Kind.ne_eof hop rfl) fun _ => .bind hu.fewer fun y =>
          .bind (hrest op.rightBound y) fun _ => hrest bound _

theorem binaryRule_safe (hg : g.Safe m) : g.binaryRule.Takes (m + 1) .anywhere :=
  .first (unaryRule_safe hg) fun y => climb_safe (unaryRule_safe hg).fewer hg.turns 0 y

theorem conditionalRule_safe (hg : g.Safe m) : g.conditionalRule.Takes (m + 1) .anywhere :=
  .first (binaryRule_safe hg) fun _ => .accept (.bind hg.assignment fun _ =>
    .bind (.expect _) fun _ => .bind hg.assignment fun _ => .done) .done

theorem yieldExpression_safe (hg : g.Safe m) : g.yieldExpression.Takes (m + 1) .filled :=
  .advance_filled fun _ => .glance fun _ => .ite (fun _ => .done) fun _ =>
    .bind (.accept_steady _) fun _ => .bind hg.assignment fun _ => .done

theorem assignmentRule_safe (hg : g.Safe m) : g.assignmentRule.Takes (m + 1) .anywhere := by
  intro c s hc hs _
  show ((if _ then g.yieldExpression else _) c s).Settled s _
  split
  · next hb =>
    have hyield : (c.next s).kind = .name "yield" := beq_iff_eq.1 (Bool.and_eq_true_iff.1 hb).2
    exact yieldExpression_safe hg hc hs (by simp [Site.filled, hyield])
  · refine Parser.Safe.first (V := fun _ => False) (conditionalRule_safe hg)
      (fun target => .glance fun x => ?_) hc hs trivial
    split
    · exact .done
    · exact checkTarget_safe _ (.bind .advance_steady fun _ => .bind hg.assignment fun _ => .done)

theorem expressionRule_safe (hg : g.Safe m) : g.expressionRule.Takes (m + 1) .anywhere :=
  commaExpression_safe (assignmentRule_safe hg) hg.turns

end JsClass.Grammar
