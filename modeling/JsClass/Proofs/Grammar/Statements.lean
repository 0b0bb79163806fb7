import JsClass.Parse
import JsClass.Proofs.Grammar.Expressions

/-!
What the rules for statements read. The rules of every level are sound, by induction over the
levels, and so are those of a program.
-/
namespace JsClass.Grammar

open Scope JsClass.Parser

variable {g : Grammar} {c : Context} {s t : State} {n : Node}

/-! Declarations of variables. -/

theorem declarationKind?_eq_ok {kind : Option VarKind} (h : declarationKind? c s = .ok kind t) :
    s = t ∧ (kind.isSome → (c.next s).kind.isLeaf = false) := by
  simp only [declarationKind?, bind_eq_ok, peek_eq_ok] at h
  obtain ⟨_, _, ⟨rfl, rfl⟩, h⟩ := h
  cases hk : (c.next s).kind
  case name word =>
    refine ⟨?_, fun _ => rfl⟩
    by_cases hw : word = "let"
    · subst hw
      simp only [hk, bind_eq_ok, peekAt_eq_ok, ite_eq_ok, pure_eq_ok] at h
      obtain ⟨_, _, ⟨rfl, rfl⟩, ⟨-, -, rfl⟩ | ⟨-, -, rfl⟩⟩ := h
      · rfl
      · rfl
    · simp [hk, hw] at h
      exact h.2
  case keyword k =>
    refine ⟨?_, fun _ => rfl⟩
    cases k <;> simp only [hk, pure_eq_ok] at h <;> exact h.2
  all_goals
    simp only [hk, pure_eq_ok] at h
    exact ⟨h.2, fun hs => by rw [← h.1] at hs; cases hs⟩

/-- Behind the name there is `in` or `of`. -/
theorem startsForIn_eq_ok {offset : Nat} {b : Bool} (h : startsForIn offset c s = .ok b t) :
    s = t ∧ (b = true →
      ((s.pending.drop (offset + 1)).headD c.finish).kind = .keyword .in_ ∨
        ((s.pending.drop (offset + 1)).headD c.finish).kind = .name "of") := by
  simp only [startsForIn, bind_eq_ok, peekAt_eq_ok, pure_eq_ok] at h
  obtain ⟨_, _, ⟨-, rfl⟩, _, _, ⟨rfl, rfl⟩, rfl, rfl⟩ := h
  refine ⟨rfl, fun hb => ?_⟩
  simp only [Bool.and_eq_true, Bool.or_eq_true, beq_iff_eq] at hb
  exact hb.2

/-- These words are no leaves. -/
theorem startsForIn_not_leaf {offset : Nat} (h : startsForIn offset c s = .ok true t) :
    ((s.pending.drop (offset + 1)).headD c.finish).kind.isLeaf = false := by
  rcases (startsForIn_eq_ok h).2 rfl with hk | hk
  · rw [hk]
    rfl
  · rw [hk]
    rfl

theorem ident_pending {i : Ident} (h : ident c s = .ok i t) : t.pending = s.pending.drop 1 := by
  simp only [ident, checkUnreserved, bind_eq_ok, anyWord_eq_ok, context_eq_ok, ite_eq_ok,
    reject_eq_ok, report_eq_ok, pure_eq_ok, and_false, false_or] at h
  obtain ⟨_, _, ⟨_, -, -, rfl⟩, _, _, ⟨_, _, ⟨rfl, rfl⟩, -, -, -, ⟨-, rfl⟩ | ⟨-, -, rfl⟩⟩, _, _,
    ⟨rfl, rfl⟩, -, -, rfl⟩ := h
  · simp [State.skip]
  · simp [State.skip]

theorem declarator_reads (hg : g.Sound) {kind : VarKind} (h : g.declarator kind c s = .ok n t) :
    c.Reads s [.ordinary c n] t := by
  simp only [declarator, bind_eq_ok, peek_eq_ok, ite_eq_ok, reject_eq_ok, exists_false, and_false,
    false_or] at h
  obtain ⟨i, u, hu, -, init, v, hv, h⟩ := h
  have hparts := (ident_reads hu).trans (initializer?_reads hg hv)
  cases init with
  | some x =>
    simp only [pure_eq_ok] at h
    obtain ⟨rfl, rfl⟩ := h
    exact hparts.ordinary rfl trivial
  | none =>
    simp only [ite_eq_ok, bind_eq_ok, reject_eq_ok, pure_eq_ok, exists_false, and_false,
      false_or] at h
    obtain ⟨-, rfl, rfl⟩ := h
    exact hparts.ordinary rfl trivial

theorem varDecl_reads (hg : g.Sound) {kind : VarKind} (hk : (c.next s).kind.isLeaf = false)
    (h : g.varDecl kind c s = .ok n t) : c.Reads s [.ordinary c n] t := by
  simp only [varDecl, bind_eq_ok, pure_eq_ok] at h
  obtain ⟨_, u, hu, ns, v, hv, rfl, rfl⟩ := h
  have hns : c.Reads u (ns.map (.ordinary c)) v := by
    rw [List.map_eq_flatMap]
    refine collect_reads ?_ hv
    intro s r t hr
    simp only [bind_eq_ok, ite_eq_ok, pure_eq_ok] at hr
    obtain ⟨d, u, hd, _, v, hv, ⟨-, rfl, rfl⟩ | ⟨-, rfl, rfl⟩⟩ := hr
    · exact (declarator_reads hg hd).trans (accept_reads hv)
    · exact (declarator_reads hg hd).trans (accept_reads hv)
  have hu : c.Reads s [] u := advance_reads hk hu
  exact (hu.trans hns).ordinary rfl trivial

theorem varStatement_reads (hg : g.Sound) {kind : VarKind} (hk : (c.next s).kind.isLeaf = false)
    (h : g.varStatement kind c s = .ok n t) : c.Reads s [.ordinary c n] t := by
  simp only [varStatement, bind_eq_ok, pure_eq_ok] at h
  obtain ⟨d, u, hu, _, v, hv, rfl, rfl⟩ := h
  exact (varDecl_reads hg hk hu).trans (semicolon_reads hv)

/-! Conditionals and loops. -/

theorem returnStatement_reads (hg : g.Sound) (h : g.returnStatement c s = .ok n t) :
    c.Reads s [.ordinary c n] t := by
  simp only [returnStatement, bind_eq_ok, context_eq_ok, ite_eq_ok, reject_eq_ok, check_eq_ok,
    canInsertSemicolon_eq_ok, pure_eq_ok, and_false, false_or] at h
  obtain ⟨_, u, hu, _, _, ⟨rfl, rfl⟩, -, _, _, ⟨-, rfl⟩, _, _, ⟨-, rfl⟩,
    ⟨-, _, v, hv, rfl, rfl⟩ | ⟨-, x, v, hv, _, w, hw, rfl, rfl⟩⟩ := h
  · exact ((expectKeyword_reads hu).trans (semicolon_reads hv)).ordinary rfl trivial
  · exact ((expectKeyword_reads hu).trans ((expression_reads hg hv).trans
      (semicolon_reads hw))).ordinary rfl trivial

theorem ifStatement_reads (hg : g.Sound) (h : g.ifStatement c s = .ok n t) :
    c.Reads s [.ordinary c n] t := by
  simp only [ifStatement, bind_eq_ok, ite_eq_ok, pure_eq_ok] at h
  obtain ⟨_, u, hu, x, v, hv, y, w, hw, _, a, ha, ⟨-, z, b, hb, rfl, rfl⟩ | ⟨-, rfl, rfl⟩⟩ := h
  · exact ((expectKeyword_reads hu).trans ((parenthesized_reads hg hv).trans
      ((hg.statement hw).trans ((acceptKeyword_reads ha).trans
        (hg.statement hb))))).ordinary rfl trivial
  · exact ((expectKeyword_reads hu).trans ((parenthesized_reads hg hv).trans
      ((hg.statement hw).trans (acceptKeyword_reads ha)))).ordinary rfl trivial

theorem whileStatement_reads (hg : g.Sound) (h : g.whileStatement c s = .ok n t) :
    c.Reads s [.ordinary c n] t := by
  simp only [whileStatement, bind_eq_ok, pure_eq_ok] at h
  obtain ⟨_, u, hu, x, v, hv, y, w, hw, rfl, rfl⟩ := h
  exact ((expectKeyword_reads hu).trans ((parenthesized_reads hg hv).trans
    (hg.statement hw))).ordinary rfl trivial

theorem doWhileStatement_reads (hg : g.Sound) (h : g.doWhileStatement c s = .ok n t) :
    c.Reads s [.ordinary c n] t := by
  simp only [doWhileStatement, bind_eq_ok, pure_eq_ok] at h
  obtain ⟨_, u, hu, x, v, hv, _, w, hw, y, a, ha, _, b, hb, rfl, rfl⟩ := h
  exact ((expectKeyword_reads hu).trans ((hg.statement hv).trans ((expectKeyword_reads hw).trans
    ((parenthesized_reads hg ha).trans (accept_reads hb))))).ordinary rfl trivial

theorem forInRest_reads (hg : g.Sound) {x : Token} {left : Node} {r : State}
    (hl : c.Reads r [.ordinary c left] s) (hk : (c.next s).kind.isLeaf = false)
    (h : g.forInRest x left c s = .ok n t) : c.Reads r [.ordinary c n] t := by
  simp only [forInRest, bind_eq_ok, acceptKeyword_eq_ok, ite_eq_ok, pure_eq_ok] at h
  obtain ⟨_, u, hu, h⟩ := h
  rcases hu with ⟨-, rfl, rfl⟩ | ⟨-, rfl, rfl⟩
  · simp only [true_and, not_true_eq_false, false_and, or_false] at h
    obtain ⟨y, v, hv, _, w, hw, z, a, ha, rfl, rfl⟩ := h
    exact (hl.trans ((Reads.skip hk).trans ((expression_reads hg hv).trans ((expect_reads hw).trans
      (hg.statement ha))))).ordinary rfl trivial
  · simp only [Bool.false_eq_true, false_and, not_false_eq_true, true_and, false_or] at h
    obtain ⟨_, u, hu, y, v, hv, _, w, hw, z, a, ha, rfl, rfl⟩ := h
    have hu : c.Reads s [] u := advance_reads hk hu
    exact (hl.trans (hu.trans ((hg.assignment hv).trans ((expect_reads hw).trans
      (hg.statement ha))))).ordinary rfl trivial

theorem optionalBefore_reads (hg : g.Sound) {close : Punct} {x : Option Node}
    (h : g.optionalBefore close c s = .ok x t) : c.Reads s (x.toList.map (.ordinary c)) t := by
  simp only [optionalBefore, bind_eq_ok, check_eq_ok, ite_eq_ok, pure_eq_ok] at h
  obtain ⟨_, _, ⟨-, rfl⟩, ⟨-, rfl, rfl⟩ | ⟨-, x, u, hu, rfl, rfl⟩⟩ := h
  · exact .rfl'
  · exact expression_reads hg hu

theorem forRest_reads (hg : g.Sound) {x : Token} {init : Option Node} {r : State}
    (hi : c.Reads r (init.toList.map (.ordinary c)) s) (h : g.forRest x init c s = .ok n t) :
    c.Reads r [.ordinary c n] t := by
  simp only [forRest, bind_eq_ok, pure_eq_ok] at h
  obtain ⟨_, u, hu, condition, v, hv, _, w, hw, step, a, ha, _, b, hb, body, d, hd, rfl, rfl⟩ := h
  have hparts := hi.trans ((expect_reads hu).trans ((optionalBefore_reads hg hv).trans
    ((expect_reads hw).trans ((optionalBefore_reads hg ha).trans ((expect_reads hb).trans
      (hg.statement hd))))))
  refine .ordinary ?_ rfl trivial
  cases init <;> cases condition <;> cases step <;> exact hparts

theorem forStatement_reads (hg : g.Sound) (h : g.forStatement c s = .ok n t) :
    c.Reads s [.ordinary c n] t := by
  simp only [forStatement, bind_eq_ok] at h
  obtain ⟨_, u, hu, _, v, hv, kind, w, hw, h⟩ := h
  have hhead : c.Reads s [] v := (expectKeyword_reads hu).trans (expect_reads hv)
  obtain ⟨rfl, hk⟩ := declarationKind?_eq_ok hw
  cases kind with
  | some kind =>
    simp only [bind_eq_ok, ite_eq_ok] at h
    obtain ⟨b, w, hw, h⟩ := h
    obtain ⟨rfl, -⟩ := startsForIn_eq_ok hw
    obtain ⟨rfl, keyword, a, ha, name, b, hname, h⟩ | ⟨-, d, a, ha, h⟩ := h
    · have ha' : c.Reads v [] a := advance_reads (hk rfl) ha
      have hdeclarator : c.Reads a [.ordinary c ⟨.declarator name.node none, name.pos⟩] b :=
        (ident_reads hname).ordinary rfl trivial
      have hleft : c.Reads v [.ordinary c (keyword.node (.varDecl kind
          [⟨.declarator name.node none, name.pos⟩]))] b :=
        (ha'.trans hdeclarator).ordinary rfl trivial
      refine hhead.trans (forInRest_reads hg hleft ?_ h)
      obtain ⟨-, rfl⟩ := advance_eq_ok.1 ha
      rw [Context.next, ident_pending hname]
      simpa [State.skip] using startsForIn_not_leaf hw
    · have hd : c.Reads v ((some d).toList.map (.ordinary c)) a := varDecl_reads hg (hk rfl) ha
      exact hhead.trans (forRest_reads hg hd h)
  | none =>
    simp only [bind_eq_ok, ite_eq_ok] at h
    obtain ⟨b, w, hw, h⟩ := h
    obtain ⟨rfl, -⟩ := startsForIn_eq_ok hw
    obtain ⟨rfl, name, a, ha, h⟩ | ⟨-, x, a, ha, h⟩ := h
    · refine hhead.trans (forInRest_reads hg (ident_reads ha) ?_ h)
      rw [Context.next, ident_pending ha]
      exact startsForIn_not_leaf hw
    · exact hhead.trans (forRest_reads hg (optionalBefore_reads hg ha) h)

/-! Switches and handlers. -/

theorem caseRest_reads (hg : g.Sound) {x : Token} {test : Option Node} {r : State}
    (ht : c.Reads r (test.toList.map (.ordinary c)) s) (h : g.caseRest x test c s = .ok n t) :
    c.Reads r [.ordinary c n] t := by
  simp only [caseRest, bind_eq_ok, pure_eq_ok] at h
  obtain ⟨_, u, hu, ns, v, hv, rfl, rfl⟩ := h
  exact (ht.trans ((expect_reads hu).trans (statementsUntil_reads hg hv))).ordinary rfl trivial

theorem switchCases_reads (hg : g.Sound) {ns : List Node} (h : g.switchCases c s = .ok ns t) :
    c.Reads s (ns.map (.ordinary c)) t := by
  rw [List.map_eq_flatMap]
  refine collectFrom_reads ?_ h
  intro hasDefault s r t hr
  simp only [bind_eq_ok, peek_eq_ok] at hr
  obtain ⟨_, _, ⟨rfl, rfl⟩, hr⟩ := hr
  have hstop : (pure (.stop []) : Parser (Turn Bool Node)) c s = .ok r t →
      c.Reads s (r.items.flatMap fun n => [.ordinary c n]) t := by
    intro h
    obtain ⟨rfl, rfl⟩ := pure_eq_ok.1 h
    exact .rfl'
  cases hk : (c.next s).kind <;> simp only [hk, unexpected_eq_ok] at hr
  case eof => exact hstop hr
  case punct p =>
    cases p <;> simp only [unexpected_eq_ok] at hr
    exact hstop hr
  case keyword k =>
    have hleaf : (c.next s).kind.isLeaf = false := by
      rw [hk]
      rfl
    cases k <;> simp only [unexpected_eq_ok] at hr
    case case_ =>
      simp only [bind_eq_ok, pure_eq_ok] at hr
      obtain ⟨_, u, hu, test, v, hv, x, w, hw, rfl, rfl⟩ := hr
      have htest : c.Reads s ((some test).toList.map (.ordinary c)) v :=
        (advance_reads hleaf hu).trans (expression_reads hg hv)
      exact caseRest_reads hg htest hw
    case default_ =>
      simp only [bind_eq_ok, ite_eq_ok, reject_eq_ok, pure_eq_ok, and_false, false_or] at hr
      obtain ⟨_, u, hu, -, x, w, hw, rfl, rfl⟩ := hr
      have htest : c.Reads s ((none : Option Node).toList.map (.ordinary c)) u :=
        advance_reads hleaf hu
      exact caseRest_reads hg htest hw

theorem switchStatement_reads (hg : g.Sound) (h : g.switchStatement c s = .ok n t) :
    c.Reads s [.ordinary c n] t := by
  simp only [switchStatement, bind_eq_ok, pure_eq_ok] at h
  obtain ⟨_, u, hu, x, v, hv, _, w, hw, ns, a, ha, _, b, hb, rfl, rfl⟩ := h
  have hcases := (switchCases_reads hg ha).trans (expect_reads hb)
  rw [List.append_nil] at hcases
  exact ((expectKeyword_reads hu).trans ((parenthesized_reads hg hv).trans ((expect_reads hw).trans
    hcases))).ordinary rfl trivial

theorem wordStatement_reads {shape : Shape Node} (hk : (c.next s).kind.isLeaf = false)
    (hparts : shape.parts c = []) (hsilent : ∀ pos, Node.isSilent ⟨shape, pos⟩ = true)
    (hallowed : shape.IsOrdinary c) (h : wordStatement shape c s = .ok n t) :
    c.Reads s [.ordinary c n] t := by
  simp only [wordStatement, bind_eq_ok, pure_eq_ok] at h
  obtain ⟨x, u, hu, _, v, hv, rfl, rfl⟩ := h
  have hread : c.Reads s [] v := (advance_reads hk hu).trans (semicolon_reads hv)
  rw [← hparts] at hread
  exact hread.ordinary (hsilent _) hallowed

theorem throwStatement_reads (hg : g.Sound) (h : g.throwStatement c s = .ok n t) :
    c.Reads s [.ordinary c n] t := by
  simp only [throwStatement, bind_eq_ok, peek_eq_ok, ite_eq_ok, reject_eq_ok, pure_eq_ok, and_false,
    false_or] at h
  obtain ⟨_, u, hu, _, _, ⟨rfl, rfl⟩, -, x, v, hv, _, w, hw, rfl, rfl⟩ := h
  exact ((expectKeyword_reads hu).trans ((expression_reads hg hv).trans
    (semicolon_reads hw))).ordinary rfl trivial

theorem catchParam?_reads {x : Option Node} (h : catchParam? c s = .ok x t) :
    c.Reads s (x.toList.map (.ordinary c)) t := by
  simp only [catchParam?, bind_eq_ok, ite_eq_ok, pure_eq_ok] at h
  obtain ⟨_, u, hu, ⟨-, i, v, hv, _, w, hw, rfl, rfl⟩ | ⟨-, rfl, rfl⟩⟩ := h
  · exact (accept_reads hu).trans ((ident_reads hv).trans (expect_reads hw))
  · exact accept_reads hu

theorem handler?_reads (hg : g.Sound) {x y : Option Node} (h : g.handler? c s = .ok (x, y) t) :
    c.Reads s (x.toList.map (.ordinary c) ++ y.toList.map (.ordinary c)) t := by
  simp only [handler?, bind_eq_ok, ite_eq_ok, pure_eq_ok, Prod.mk.injEq] at h
  obtain ⟨_, u, hu, ⟨-, x, v, hv, y, w, hw, ⟨rfl, rfl⟩, rfl⟩ | ⟨-, ⟨rfl, rfl⟩, rfl⟩⟩ := h
  · exact (acceptKeyword_reads hu).trans ((catchParam?_reads hv).trans (block_reads hg hw))
  · exact acceptKeyword_reads hu

theorem finalizer?_reads (hg : g.Sound) {x : Option Node} (h : g.finalizer? c s = .ok x t) :
    c.Reads s (x.toList.map (.ordinary c)) t := by
  simp only [finalizer?, bind_eq_ok, ite_eq_ok, pure_eq_ok] at h
  obtain ⟨_, u, hu, ⟨-, x, v, hv, rfl, rfl⟩ | ⟨-, rfl, rfl⟩⟩ := h
  · exact (acceptKeyword_reads hu).trans (block_reads hg hv)
  · exact acceptKeyword_reads hu

theorem tryStatement_reads (hg : g.Sound) (h : g.tryStatement c s = .ok n t) :
    c.Reads s [.ordinary c n] t := by
  simp only [tryStatement, bind_eq_ok, ite_eq_ok, reject_eq_ok, pure_eq_ok, and_false,
    false_or] at h
  obtain ⟨_, u, hu, b, v, hv, ⟨param, handler⟩, w, hw, finalizer, a, ha, -, rfl, rfl⟩ := h
  have hparts := (expectKeyword_reads hu).trans ((block_reads hg hv).trans
    ((handler?_reads hg hw).trans (finalizer?_reads hg ha)))
  refine .ordinary ?_ rfl trivial
  cases param <;> cases handler <;> cases finalizer <;> exact hparts

/-! All statements. -/

theorem expressionStatement_reads (hg : g.Sound) (h : g.expressionStatement c s = .ok n t) :
    c.Reads s [.ordinary c n] t := by
  simp only [expressionStatement, bind_eq_ok, peek_eq_ok, pure_eq_ok] at h
  obtain ⟨_, _, ⟨rfl, rfl⟩, x, u, hu, _, v, hv, rfl, rfl⟩ := h
  exact ((expressionRule_reads hg hu).trans (semicolon_reads hv)).ordinary rfl trivial

theorem otherStatement_reads (hg : g.Sound) (h : g.otherStatement c s = .ok n t) :
    c.Reads s [.ordinary c n] t := by
  simp only [otherStatement, bind_eq_ok, ite_eq_ok] at h
  obtain ⟨b, v, hv, h⟩ := h
  obtain ⟨rfl, hasync⟩ := isAsyncFunction_eq_ok hv
  obtain ⟨hb, _, u, hu, h⟩ | ⟨-, h⟩ := h
  · obtain ⟨he, hk⟩ := hasync hb
    have hu : c.Reads s [] u := advance_reads (by rw [hk]; rfl) hu
    exact hu.trans (function_reads hg (fun _ => he) h)
  · exact expressionStatement_reads hg h

theorem simpleStatement_reads (hg : g.Sound) (h : g.simpleStatement c s = .ok n t) :
    c.Reads s [.ordinary c n] t := by
  simp only [simpleStatement, bind_eq_ok, peek_eq_ok] at h
  obtain ⟨_, _, ⟨rfl, rfl⟩, h⟩ := h
  cases hk : (c.next s).kind <;> simp only [hk] at h
  case punct p =>
    cases p
    case lbrace => exact block_reads hg h
    case semicolon =>
      simp only [bind_eq_ok, pure_eq_ok] at h
      obtain ⟨_, u, hu, rfl, rfl⟩ := h
      have hu : c.Reads s [] u := advance_reads (by rw [hk]; rfl) hu
      exact hu.ordinary rfl trivial
    all_goals exact otherStatement_reads hg h
  case keyword k =>
    have hleaf : (c.next s).kind.isLeaf = false := by
      rw [hk]
      rfl
    cases k
    case function_ => exact function_reads hg (by simp) h
    case class_ => exact class_reads hg h
    case return_ => exact returnStatement_reads hg h
    case if_ => exact ifStatement_reads hg h
    case while_ => exact whileStatement_reads hg h
    case do_ => exact doWhileStatement_reads hg h
    case for_ => exact forStatement_reads hg h
    case switch_ => exact switchStatement_reads hg h
    case try_ => exact tryStatement_reads hg h
    case throw_ => exact throwStatement_reads hg h
    case break_ | continue_ | debugger_ =>
      refine wordStatement_reads hleaf ?_ ?_ ?_ h
      · rfl
      · exact fun _ => rfl
      · trivial
    case import_ | export_ | with_ => simp at h
    all_goals exact otherStatement_reads hg h
  all_goals exact otherStatement_reads hg h

theorem statementRule_reads (hg : g.Sound) (h : g.statementRule c s = .ok n t) :
    c.Reads s [.ordinary c n] t := by
  simp only [statementRule, bind_eq_ok] at h
  obtain ⟨kind, u, hu, h⟩ := h
  obtain ⟨rfl, hk⟩ := declarationKind?_eq_ok hu
  cases kind with
  | some kind => exact varStatement_reads hg (hk rfl) h
  | none => exact simpleStatement_reads hg h

/-! Levels and programs. -/

theorem exhausted_sound : exhausted.Sound where
  statement h := by simp [exhausted] at h
  assignment h := by simp [exhausted] at h
  unary h := by simp [exhausted] at h
  subscripted h := by simp [exhausted] at h
  atom h := by simp [exhausted] at h
  assignment_neverSuper := .fail _
  atom_super h := by simp [exhausted] at h

/-- The number of turns does not matter. -/
theorem Sound.withTurns (hg : g.Sound) (turns : Nat) : { g with turns }.Sound :=
  ⟨hg.statement, hg.assignment, hg.unary, hg.subscripted, hg.atom, hg.assignment_neverSuper,
    hg.atom_super⟩

theorem Sound.next (hg : g.Sound) : g.next.Sound where
  statement := statementRule_reads (hg.withTurns _)
  assignment := assignmentRule_reads (hg.withTurns _)
  unary := unaryRule_reads (hg.withTurns _)
  subscripted := subscriptedRule_reads (hg.withTurns _)
  atom := atomRule_reads (hg.withTurns _)
  assignment_neverSuper := assignmentRule_neverSuper hg.assignment_neverSuper
  atom_super := atomRule_super hg.assignment_neverSuper

theorem level_sound (n : Nat) : (level n).Sound := by
  induction n with
  | zero => exact exhausted_sound
  | succ n ih => exact ih.next

/-- Only the end of input ends a program. -/
theorem program_next {ns : List Node} (h : g.program c s = .ok ns t) : (c.next t).kind = .eof := by
  refine collectFrom_induction (P := fun _ _ _ t => (c.next t).kind = .eof) ?_ ?_ h
  · intro _ s items t hr
    simp only [bind_eq_ok, peek_eq_ok, ite_eq_ok, pure_eq_ok, reduceCtorEq, false_and, and_false,
      exists_false, or_false] at hr
    obtain ⟨_, _, ⟨rfl, rfl⟩, hk, -, rfl⟩ := hr
    simpa using hk
  · intro _ _ _ _ _ _ _ _ ih
    exact ih

end JsClass.Grammar

namespace JsClass

variable {d : Dialect} {options : Options} {body : List Node} {t : State} {parsed : Parsed}

theorem TokenStream.statements_reads {s : TokenStream} (h : s.statements d options = .ok body t) :
    (Context.initial d options s.finish).Reads ⟨s.tokens, [], .empty⟩
      (body.map (.ordinary (.initial d options s.finish))) t := by
  rw [statements, Grammar.program] at h
  exact Grammar.statementsUntil_reads (Grammar.level_sound _) h

theorem TokenStream.parse_eq_ok {s : TokenStream} : s.parse d options = .ok parsed ↔
    ∃ body t, s.statements d options = .ok body t ∧
      ⟨⟨body, options.sourceType⟩, t.reported⟩ = parsed := by
  cases hs : s.statements d options with
  | ok body t => simp [parse, hs, and_assoc]
  | error e t => simp [parse, hs]

/-- A program that was read from a text was read from its tokens. -/
theorem parse_eq_ok {source : String} (h : parse options source = .ok parsed) :
    ∃ (s : TokenStream) (t : State), tokenize .withPrivate source = .ok s ∧
      s.statements .withPrivate options = .ok parsed.program.body t := by
  cases hs : tokenize .withPrivate source with
  | error e => simp [parse, parseWith, hs, bind, Except.bind] at h
  | ok s =>
    simp only [parse, parseWith, hs, bind, Except.bind, TokenStream.parse_eq_ok] at h
    obtain ⟨body, t, ht, rfl⟩ := h
    exact ⟨s, t, rfl, ht⟩

end JsClass
