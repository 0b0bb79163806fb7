import JsClass.Proofs.Edition.Expressions
import JsClass.Proofs.Nesting.Members

/-! Expressions, from atoms outward. -/
namespace JsClass.Grammar

open JsClass.Parser

variable {g : Grammar} {S : Site} {st : List Punct}

theorem spreadable_nests (hg : g.Nests) : g.spreadable.Closes S st :=
  .step .peek fun _ => .accept rfl (.bind (hg.assignment _ _) fun _ => .done) (hg.assignment _ _)

theorem arguments_nests (hg : g.Nests) : g.arguments.Nests S (.rparen :: st) fun _ => st :=
  separated_nests rfl fun _ _ => spreadable_nests hg

theorem element_nests (hg : g.Nests) : g.element.Closes S st :=
  .look (fun _ _ => ⟨_, rfl⟩) fun _ => .ite (fun _ => .done) fun _ =>
    .bind (spreadable_nests hg) fun _ => .done

theorem array_nests (hg : g.Nests) : g.array.Closes S st :=
  .bind (.expect rfl) fun _ => .bind (separated_nests rfl fun _ _ => element_nests hg) fun _ =>
    .done

theorem dotProperty_nests : dotProperty.Closes S st :=
  .step .peek fun _ => .step .context fun _ => .ite
    (fun _ => .bind .privateName fun _ => .step (.onScope _) fun _ => .done)
    fun _ => .bind .propertyWord fun _ => .done

theorem subscript_nests (hg : g.Nests) (calls : Bool) (base : Node) :
    (g.subscript calls base).Closes S st := by
  refine .peek fun x => ?_
  split
  · next hx => exact .advance (by rw [hx]; rfl) fun _ => .bind dotProperty_nests fun _ => .done
  · next hx =>
    exact .advance (by rw [hx]; rfl) fun _ => .bind (expression_nests hg) fun _ =>
      .bind (.expect rfl) fun _ => .done
  · next hx =>
    refine .ite (fun _ => ?_) fun _ => .done
    exact .advance (by rw [hx]; rfl) fun _ => .bind (arguments_nests hg) fun _ => .done
  · exact .done

theorem subscripts_nests (hg : g.Nests) (calls : Bool) (base : Node) :
    (g.subscripts calls base).Closes S st :=
  extend_nests (fun _ _ _ => subscript_nests hg calls _) base

theorem newExpression_nests (hg : g.Nests) : g.newExpression.Closes S st :=
  .bind (.expectKeyword _) fun _ => .step .peek fun _ => .ite (fun _ => .reject _ _) fun _ =>
    .bind (hg.atom _ _) fun _ => .bind (subscripts_nests hg _ _) fun _ =>
      .accept rfl (.bind (arguments_nests hg) fun _ => .done) .done

/-! Atoms. -/

theorem superExpression_nests : superExpression.Closes S st := by
  refine .bind (.expectKeyword _) fun _ => .step .context fun _ => .step .peek fun _ => ?_
  split
  · exact .ite (fun _ => .reject _ _) fun _ => .ite (fun _ => .reject _ _) fun _ => .done
  · exact .ite (fun _ => .reject _ _) fun _ => .done
  · exact .ite (fun _ => .reject _ _) fun _ => .done
  · exact .unexpected _

/-- The word `async` is no bracket. -/
theorem asyncChoice_nests (hg : g.Nests) (form : FunctionForm) {p : Parser Node}
    (hp : p.Closes .anywhere st) :
    (do
      if ← isAsyncFunction then
        let _ ← advance
        g.function form true
      else p : Parser Node).Closes S st := by
  intro c s n t hc _ h
  obtain ⟨b, u, hu, h⟩ := bind_eq_ok.1 h
  obtain ⟨rfl, hasync⟩ := isAsyncFunction_eq_ok hu
  rcases ite_eq_ok.1 h with ⟨hb, h⟩ | ⟨-, h⟩
  · have hflat : Site.flat c s := by
      rw [Site.flat, (hasync hb).2]
      exact fun _ => rfl
    exact Nests.bind .advance_flat (fun _ => function_nests hg form true) hc hflat h
  · exact hp hc trivial h

theorem nameExpression_nests (hg : g.Nests) : g.nameExpression.Closes S st := by
  rw [nameExpression_eq]
  exact .step .peek fun x => asyncChoice_nests hg .expression (.bind .ident fun _ =>
    .step .peek fun _ => .ite (fun _ => arrow_nests hg _ x) fun _ => .done)

theorem parenExpression_nests (hg : g.Nests) : g.parenExpression.Closes S st :=
  .step .peek fun x => .look (fun _ _ => ⟨_, rfl⟩) fun _ => .ite
    (fun _ => .bind (params_nests hg) fun ps => arrow_nests hg ps x)
    fun _ => parenthesized_nests hg

theorem atomRule_nests (hg : g.Nests) : g.atomRule.Closes S st := by
  refine .peek fun x => ?_
  split
  · exact superExpression_nests
  · next hx => exact .advance (by rw [hx]; rfl) fun _ => .done
  · exact nameExpression_nests hg
  · next hx => exact .advance (by rw [hx]; rfl) fun _ => .still (numberLiteral_still _ _)
  · next hx => exact .advance (by rw [hx]; rfl) fun _ => .done
  · next hx => exact .advance (by rw [hx]; rfl) fun _ => .done
  · next hx => exact .advance (by rw [hx]; rfl) fun _ => .done
  · next hx => exact .advance (by rw [hx]; rfl) fun _ => .done
  · exact parenExpression_nests hg
  · exact array_nests hg
  · exact object_nests hg
  · exact function_nests hg _ _
  · exact class_nests hg _
  · exact newExpression_nests hg
  · exact .unexpected _

theorem subscriptedRule_nests (hg : g.Nests) : g.subscriptedRule.Closes S st :=
  .bind (atomRule_nests hg) fun _ => .ite (fun _ => .done) fun _ => subscripts_nests hg _ _

/-! Operators. -/

theorem checkTarget_still (n : Node) : (checkTarget n).Still := .ite .pure (.reject _ _)

theorem postfixUpdate_nests (operand : Node) : (postfixUpdate operand).Closes S st := by
  refine .peek fun x => ?_
  split
  · next op hop =>
    refine .ite (fun _ => .done) fun _ => ?_
    unfold checkTarget
    split
    · exact .advance (Kind.isFlat_update hop st) fun _ => .done
    · exact .reject _ _
  · exact .done

theorem checkDelete_still (x : Token) (operand : Node) : (checkDelete x operand).Still :=
  .bind .context fun _ => .ite (.reject _ _) (.ite (.reject _ _) .pure)

theorem unaryOperator_nests (hg : g.Nests) (x : Token) (op : UnaryOp) :
    (g.unaryOperator x op).Closes S st :=
  .bind (hg.unary _ _) fun _ => .ite (fun _ => .step (checkDelete_still _ _) fun _ => .done)
    fun _ => .done

theorem prefixUpdate_nests (hg : g.Nests) (x : Token) (op : UpdateOp) :
    (g.prefixUpdate x op).Closes S st :=
  .bind (hg.unary _ _) fun _ => .step (checkTarget_still _) fun _ => .done

theorem unaryRule_nests (hg : g.Nests) : g.unaryRule.Closes S st := by
  refine .peek fun x => .look (fun _ _ => ⟨_, rfl⟩) fun _ => .ite (fun hb => ?_) fun _ => ?_
  · have hawait : x.kind = .name "await" := by simpa using (Bool.and_eq_true_iff.1 hb).2
    exact .advance (by rw [hawait]; rfl) fun _ => .bind (hg.unary _ _) fun _ => .done
  · split
    · next op hop =>
      exact .advance (Kind.isFlat_unary hop st) fun _ => unaryOperator_nests hg x op
    · next op _ hop =>
      exact .advance (Kind.isFlat_update hop st) fun _ => prefixUpdate_nests hg x op
    · exact .bind (subscriptedRule_nests hg) fun y =>
        extend_nests (fun _ _ _ => postfixUpdate_nests _) y

theorem climb_nests {unary : Parser Node} {turns : Nat} (hu : unary.Balanced) (bound : Nat)
    (left : Node) : (climb unary turns bound left).Closes S st := by
  induction turns generalizing S bound left with
  | zero => exact fun _ _ _ _ _ _ h => (fail_eq_ok.1 h).elim
  | succ turns ih =>
    refine .peek fun x => ?_
    split
    · exact .done
    · next op hop =>
      refine .ite (fun _ => .done) fun _ => ?_
      exact .advance (Kind.isFlat_binary hop st) fun _ => .bind (hu _ _) fun y =>
        .bind (ih op.rightBound y) fun _ => ih bound _

theorem binaryRule_nests (hg : g.Nests) : g.binaryRule.Closes S st :=
  .bind (unaryRule_nests hg) fun y => climb_nests (fun _ _ => unaryRule_nests hg) 0 y

theorem conditionalRule_nests (hg : g.Nests) : g.conditionalRule.Closes S st :=
  .bind (binaryRule_nests hg) fun _ => .accept rfl (.bind (hg.assignment _ _) fun _ =>
    .bind (.expect rfl) fun _ => .bind (hg.assignment _ _) fun _ => .done) .done

theorem yieldExpression_nests (hg : g.Nests) : g.yieldExpression.Closes .flat st :=
  .bind .advance_flat fun _ => .step .peek fun _ => .ite (fun _ => .done) fun _ =>
    .bind (.optional fun _ => rfl) fun _ => .bind (hg.assignment _ _) fun _ => .done

theorem assignmentRule_nests (hg : g.Nests) : g.assignmentRule.Closes S st := by
  refine .checkKind fun b => .look (fun _ _ => ⟨_, rfl⟩) fun _ => .ite (fun hb => ?_) fun _ => ?_
  · refine (yieldExpression_nests hg).site fun c s hyield => ?_
    rw [Site.flat, hyield (Bool.and_eq_true_iff.1 hb).2]
    exact fun _ => rfl
  · refine .bind (conditionalRule_nests hg) fun target => .peek fun y => ?_
    split
    · exact .done
    · next op hop =>
      unfold checkTarget
      split
      · exact .advance (Kind.isFlat_assign hop st) fun _ => .bind (hg.assignment _ _) fun _ => .done
      · exact .reject _ _

theorem expressionRule_nests (hg : g.Nests) : g.expressionRule.Closes S st :=
  commaExpression_nests fun _ _ => assignmentRule_nests hg

end JsClass.Grammar
