import JsClass.Grammar.Program
import JsClass.Proofs.Safety.Expressions

/-! Statements, and the rules tied together: a level is good for as many tokens as it is deep. -/
namespace JsClass.Grammar

open JsClass.Parser

variable {m : Nat} {g : Grammar}

/-! Declarations of variables. -/

/-- A declaration is announced by a token that is there. -/
theorem declarationKind?_safe {f : Option VarKind → Parser β} {T : β → Prop}
    (hsome : ∀ kind, (f (some kind)).Safe m .filled T) (hnone : (f none).Safe m .anywhere T) :
    (declarationKind? >>= f).Safe m .anywhere T := by
  unfold declarationKind?
  rw [bind_bind]
  refine .peek fun x => ?_
  have hkind : ∀ kind, x.kind ≠ .eof → (f (some kind)).Safe m (.before x) T := fun kind hx =>
    (hsome kind).site fun _ _ => Site.filled_of_before hx
  split
  · next hx => exact hkind .var (by simp [hx])
  · next hx => exact hkind .const (by simp [hx])
  · next hx =>
    rw [bind_bind]
    refine .peekAt _ fun y => ?_
    rw [ite_bind]
    exact .ite (fun _ => hkind .let (by simp [hx])) fun _ => hnone.anyplace
  · exact hnone.anyplace

theorem declarator_safe (hg : g.Safe m) (kind : VarKind) :
    (g.declarator kind).Takes m .anywhere := by
  refine .take (V := fun _ => False) .ident fun name =>
    .ite (fun _ => .glance fun _ => .reject _ _) fun _ =>
      .bind (initializer?_safe hg) fun init => ?_
  cases init with
  | some init => exact .done
  | none => exact .ite (fun _ => .glance fun _ => .reject _ _) fun _ => .done

theorem declarators_safe (hg : g.Safe m) (kind : VarKind) :
    (collect g.turns do
      let d ← g.declarator kind
      if ← accept .comma then return .more [d] () else return .stop [d]).Steady m .anywhere :=
  collect_safe (.take (declarator_safe hg kind) fun _ => .accept .done .done) hg.turns

theorem varStatement_safe (hg : g.Safe m) (kind : VarKind) :
    (g.varStatement kind).Takes (m + 1) .filled := by
  unfold varStatement varDecl
  rw [bind_bind]
  exact .advance_filled fun _ => .bind (.bind (declarators_safe hg kind) fun _ => .done) fun _ =>
    .bind .semicolon fun _ => .done

theorem varDecl_safe (hg : g.Safe m) (kind : VarKind) : (g.varDecl kind).Steady m .anywhere :=
  .bind .advance_steady fun _ => .bind (declarators_safe hg kind) fun _ => .done

/-! Simple statements. -/

theorem returnStatement_safe (hg : g.Safe m) : g.returnStatement.Takes (m + 1) .anywhere :=
  .first (.expectKeyword _) fun _ => .context fun _ => .ite (fun _ => .reject _ _) fun _ =>
    .check _ fun _ => .canInsertSemicolon fun _ => .ite (fun _ => .bind .semicolon fun _ => .done)
      fun _ => .bind (expression_safe hg) fun _ => .bind .semicolon fun _ => .done

theorem ifStatement_safe (hg : g.Safe m) : g.ifStatement.Takes (m + 1) .anywhere :=
  .first (.expectKeyword _) fun _ => .bind (parenthesized_safe hg).fewer fun _ =>
    .bind hg.statement fun _ => .acceptKeyword (.bind hg.statement fun _ => .done) .done

theorem whileStatement_safe (hg : g.Safe m) : g.whileStatement.Takes (m + 1) .anywhere :=
  .first (.expectKeyword _) fun _ => .bind (parenthesized_safe hg).fewer fun _ =>
    .bind hg.statement fun _ => .done

theorem doWhileStatement_safe (hg : g.Safe m) : g.doWhileStatement.Takes (m + 1) .anywhere :=
  .first (.expectKeyword _) fun _ => .bind hg.statement fun _ => .bind (.expectKeyword _) fun _ =>
    .bind (parenthesized_safe hg).fewer fun _ => .bind (.accept_steady _) fun _ => .done

theorem wordStatement_safe (shape : Shape Node) : (wordStatement shape).Takes (m + 1) .filled :=
  .advance_filled fun _ => .bind .semicolon fun _ => .done

theorem throwStatement_safe (hg : g.Safe m) : g.throwStatement.Takes (m + 1) .anywhere :=
  .first (.expectKeyword _) fun _ => .glance fun _ => .ite (fun _ => .reject _ _) fun _ =>
    .bind (expression_safe hg) fun _ => .bind .semicolon fun _ => .done

/-! Loops. -/

theorem forInRest_safe (hg : g.Safe m) (x : Token) (left : Node) :
    (g.forInRest x left).Steady m .anywhere :=
  .acceptKeyword
    (.bind (expression_safe hg) fun _ => .bind (.expect _) fun _ => .bind hg.statement fun _ =>
      .done)
    (.bind .advance_steady fun _ => .bind hg.assignment fun _ => .bind (.expect _) fun _ =>
      .bind hg.statement fun _ => .done)

theorem optionalBefore_safe (hg : g.Safe m) (close : Punct) :
    (g.optionalBefore close).Steady m .anywhere :=
  .check _ fun _ => .ite (fun _ => .done) fun _ => .bind (expression_safe hg) fun _ => .done

theorem forRest_safe (hg : g.Safe m) (x : Token) (init : Option Node) :
    (g.forRest x init).Steady m .anywhere :=
  .bind (.expect _) fun _ => .bind (optionalBefore_safe hg _) fun _ => .bind (.expect _) fun _ =>
    .bind (optionalBefore_safe hg _) fun _ => .bind (.expect _) fun _ =>
      .bind hg.statement fun _ => .done

theorem forStatement_safe (hg : g.Safe m) : g.forStatement.Takes (m + 1) .anywhere := by
  refine .first (.expectKeyword _) fun x => .bind (.expect _) fun _ => declarationKind?_safe
    (T := fun _ => False) (fun kind => ?_) ?_
  · exact .anyplace (.look (fun _ _ => ⟨_, rfl⟩) fun _ => .ite
      (fun _ => .bind .advance_steady fun _ => .bind .ident fun _ => forInRest_safe hg x _)
      fun _ => .bind (varDecl_safe hg kind) fun _ => forRest_safe hg x _)
  · exact .look (fun _ _ => ⟨_, rfl⟩) fun _ => .ite
      (fun _ => .bind .ident fun _ => forInRest_safe hg x _)
      fun _ => .bind (optionalBefore_safe hg _) fun _ => forRest_safe hg x _

/-! Switches and handlers. -/

theorem caseRest_safe (hg : g.Safe m) (x : Token) (test : Option Node) :
    (g.caseRest x test).Steady m .anywhere :=
  .bind (.expect _) fun _ => .bind (statementsUntil_safe hg _) fun _ => .done

theorem switchCases_safe (hg : g.Safe m) : g.switchCases.Steady m .anywhere := by
  refine collectFrom_safe (fun hasDefault => .fewer (.peek fun x => ?_)) hg.turns _
  split
  · exact .pure id
  · exact .pure id
  · next hx =>
    exact .advance (by simp [hx]) fun _ => .bind (expression_safe hg) fun _ =>
      .bind (caseRest_safe hg x _) fun _ => .done
  · next hx =>
    exact .advance (by simp [hx]) fun _ => .ite (fun _ => .reject _ _) fun _ =>
      .bind (caseRest_safe hg x _) fun _ => .done
  · exact .unexpected _

theorem switchStatement_safe (hg : g.Safe m) : g.switchStatement.Takes (m + 1) .anywhere :=
  .first (.expectKeyword _) fun _ => .bind (parenthesized_safe hg).fewer fun _ =>
    .bind (.expect _) fun _ => .bind (switchCases_safe hg) fun _ => .bind (.expect _) fun _ => .done

theorem catchParam?_safe : catchParam?.Steady m .anywhere :=
  .accept (.bind .ident fun _ => .bind (.expect _) fun _ => .done) .done

theorem handler?_safe (hg : g.Safe m) : g.handler?.Steady m .anywhere :=
  .acceptKeyword (.bind catchParam?_safe fun _ => .bind (block_safe hg).fewer fun _ => .done) .done

theorem finalizer?_safe (hg : g.Safe m) : g.finalizer?.Steady m .anywhere :=
  .acceptKeyword (.bind (block_safe hg).fewer fun _ => .done) .done

theorem tryStatement_safe (hg : g.Safe m) : g.tryStatement.Takes (m + 1) .anywhere :=
  .first (.expectKeyword _) fun _ => .bind (block_safe hg).fewer fun _ =>
    .bind (handler?_safe hg) fun _ => .bind (finalizer?_safe hg) fun _ =>
      .ite (fun _ => .reject _ _) fun _ => .done

/-! All statements. -/

theorem expressionStatement_safe (hg : g.Safe m) : g.expressionStatement.Takes (m + 1) .anywhere :=
  .glance fun _ => .first (expressionRule_safe hg) fun _ => .bind .semicolon fun _ => .done

theorem otherStatement_safe (hg : g.Safe m) : g.otherStatement.Takes (m + 1) .anywhere :=
  asyncChoice_safe hg .declaration (expressionStatement_safe hg)

theorem simpleStatement_safe (hg : g.Safe m) : g.simpleStatement.Takes (m + 1) .anywhere := by
  refine .peek fun x => ?_
  have hword : ∀ {k : Keyword} (shape : Shape Node), x.kind = .keyword k →
      (wordStatement shape).Takes (m + 1) (.before x) := fun shape hx =>
    (wordStatement_safe shape).site fun _ _ => Site.filled_of_before (by simp [hx])
  split
  · exact (block_safe hg).anyplace
  · next hx => exact .advance (by simp [hx]) fun _ => .done
  · exact (function_safe hg _ _).anyplace
  · exact (class_safe hg _).anyplace
  · exact (returnStatement_safe hg).anyplace
  · exact (ifStatement_safe hg).anyplace
  · exact (whileStatement_safe hg).anyplace
  · exact (doWhileStatement_safe hg).anyplace
  · exact (forStatement_safe hg).anyplace
  · exact (switchStatement_safe hg).anyplace
  · next hx => exact hword _ hx
  · next hx => exact hword _ hx
  · exact (tryStatement_safe hg).anyplace
  · exact (throwStatement_safe hg).anyplace
  · next hx => exact hword _ hx
  · exact .reject _ _
  · exact .reject _ _
  · exact .reject _ _
  · exact (otherStatement_safe hg).anyplace

theorem statementRule_safe (hg : g.Safe m) : g.statementRule.Takes (m + 1) .anywhere :=
  declarationKind?_safe (varStatement_safe hg) (simpleStatement_safe hg)

/-! Levels. -/

theorem exhausted_safe : exhausted.Safe 0 := ⟨Nat.le_refl 0, .zero, .zero, .zero, .zero, .zero⟩

theorem Safe.next (hg : g.Safe m) : g.next.Safe (m + 1) := by
  have hmore : { g with turns := g.turns + 1 }.Safe m :=
    ⟨Nat.le_succ_of_le hg.turns, hg.statement, hg.assignment, hg.unary, hg.subscripted, hg.atom⟩
  exact ⟨Nat.succ_le_succ hg.turns, statementRule_safe hmore, assignmentRule_safe hmore,
    unaryRule_safe hmore, subscriptedRule_safe hmore, atomRule_safe hmore⟩

/-- A level is good for fewer tokens than it is deep. -/
theorem level_safe (n : Nat) : (level n).Safe n := by
  induction n with
  | zero => exact exhausted_safe
  | succ n ih => exact ih.next

end JsClass.Grammar

namespace JsClass

/-- A program that is not read has a problem to report, or a number that cannot be read. -/
theorem TokenStream.statements_safe {s : TokenStream} (hs : s.finish.kind = .eof) (d : Dialect)
    (options : Options) {fault : Fault} {t : State}
    (h : s.statements d options = .error fault t) : fault.IsExplained s.tokens := by
  have hrun := Grammar.statementsUntil_safe (Grammar.level_safe (s.tokens.length + 1))
    (fun _ => false) (c := .initial d options s.finish) (s := ⟨s.tokens, [], .empty⟩) hs
    (Nat.lt_succ_self _) trivial
  rw [statements, Grammar.program] at h
  rw [h] at hrun
  exact hrun

end JsClass
