import JsClass.Grammar.Program
import JsClass.Proofs.Likeness.Expressions

/-! Statements, and with them all levels of the grammar. -/
namespace JsClass.Likeness

open JsClass.Grammar

variable {m : Matching} {L : Likeness m} {g g' : Grammar} {n n' : Node} {t t' : Token}

theorem declarationKind? : L.same Grammar.declarationKind? Grammar.declarationKind? := by
  refine L.bind L.peek fun t t' ht => ?_
  rcases ht.kind_cases with ⟨hk, hnot⟩ | ⟨w, w', hw, hw', -⟩
  · rw [← hk]
    split
    · exact done
    · exact done
    · exact L.bind (L.peekAt 1) fun _ _ hx => ite (hx.kind.congr Kind.isName fun _ _ => rfl) done
        done
    · exact done
  · simp only [hw, hw']
    exact done

theorem startsForIn (offset : Nat) :
    L.same (Grammar.startsForIn offset) (Grammar.startsForIn offset) :=
  L.bind (L.peekAt _) fun _ _ hx => L.bind (L.peekAt _) fun _ _ hy => L.pure (by
    rw [hx.kind.congr Kind.isName fun _ _ => rfl, hy.is rfl, hy.is rfl])

theorem declarator (hg : L.Grammars g g') (kind : VarKind) :
    L.nodes (g.declarator kind) (g'.declarator kind) := by
  refine L.bind ident fun i i' hi => ite (by rw [hi.name])
    (L.bind L.peek fun _ _ ht => L.reject (.same rfl rfl ht.pos))
    (L.bind (initializer? hg) fun r r' hr => ?_)
  cases hr with
  | some hinit => exact L.pure ⟨.declarator hi.node (.some hinit), hi.pos⟩
  | none =>
    exact ite rfl (L.bind L.peek fun _ _ ht => L.reject (.same rfl rfl ht.pos))
      (L.pure ⟨.declarator hi.node .none, hi.pos⟩)

theorem varDecl (hg : L.Grammars g g') (kind : VarKind) :
    L.nodes (g.varDecl kind) (g'.varDecl kind) := by
  unfold Grammar.varDecl
  rw [← hg.turns]
  refine L.bind L.advance fun _ _ ht => L.bind (collect (V := Node.Alike m) ?_ _) fun _ _ hds =>
    L.pure (ht.node (.varDecl hds))
  exact L.bind (declarator hg kind) fun _ _ hd => choose (accept _)
    (L.pure (.more (.cons hd .nil) rfl)) (L.pure (.stop (.cons hd .nil)))

theorem varStatement (hg : L.Grammars g g') (kind : VarKind) :
    L.nodes (g.varStatement kind) (g'.varStatement kind) :=
  L.bind (varDecl hg kind) fun _ _ h => step semicolon fun _ _ => L.pure h

/-! Simple statements. -/

theorem returnStatement (hg : L.Grammars g g') :
    L.nodes g.returnStatement g'.returnStatement := by
  refine L.bind (expectKeyword _) fun _ _ ht => L.bind L.context fun c c' hc => ite ?_
    (L.reject (.same rfl rfl ht.pos)) (L.bind (check _) ?_)
  · rw [hc.inFunction]
  · rintro empty _ rfl
    refine L.bind canInsertSemicolon fun _ _ hb => ite (by rw [hb]) ?_ ?_
    · exact step semicolon fun _ _ => L.pure (ht.node (.return_ .none))
    · exact L.bind (expression hg) fun _ _ he => step semicolon fun _ _ =>
        L.pure (ht.node (.return_ (.some he)))

theorem ifStatement (hg : L.Grammars g g') : L.nodes g.ifStatement g'.ifStatement :=
  L.bind (expectKeyword _) fun _ _ ht => L.bind (parenthesized hg) fun _ _ hc =>
    L.bind hg.statement fun _ _ hthen => choose (acceptKeyword _)
      (L.bind hg.statement fun _ _ helse => L.pure (ht.node (.if_ hc hthen (.some helse))))
      (L.pure (ht.node (.if_ hc hthen .none)))

theorem whileStatement (hg : L.Grammars g g') : L.nodes g.whileStatement g'.whileStatement :=
  L.bind (expectKeyword _) fun _ _ ht => L.bind (parenthesized hg) fun _ _ hc =>
    L.bind hg.statement fun _ _ hb => L.pure (ht.node (.while_ hc hb))

theorem doWhileStatement (hg : L.Grammars g g') :
    L.nodes g.doWhileStatement g'.doWhileStatement :=
  L.bind (expectKeyword _) fun _ _ ht => L.bind hg.statement fun _ _ hb =>
    step (expectKeyword _) fun _ _ => L.bind (parenthesized hg) fun _ _ hc =>
      step (accept _) fun _ _ => L.pure (ht.node (.doWhile hb hc))

theorem wordStatement {s : Shape Node} (hs : Shape.Alike m (Node.Alike m) s s) :
    L.nodes (Grammar.wordStatement s) (Grammar.wordStatement s) :=
  L.bind L.advance fun _ _ ht => step semicolon fun _ _ => L.pure (ht.node hs)

theorem throwStatement (hg : L.Grammars g g') : L.nodes g.throwStatement g'.throwStatement :=
  L.bind (expectKeyword _) fun _ _ ht => L.bind L.peek fun _ _ hnext => ite hnext.newline
    (L.reject (.same rfl rfl ht.pos)) (L.bind (expression hg) fun _ _ he => step semicolon
      fun _ _ => L.pure (ht.node (.throw_ he)))

/-! Loops. -/

theorem forInRest (hg : L.Grammars g g') (ht : t.Alike m t') (hn : n.Alike m n') :
    L.nodes (g.forInRest t n) (g'.forInRest t' n') :=
  choose (acceptKeyword _)
    (L.bind (expression hg) fun _ _ he => step (expect _) fun _ _ => L.bind hg.statement
      fun _ _ hb => L.pure (ht.node (.forIn hn he hb)))
    (step L.advance fun _ _ => L.bind hg.assignment fun _ _ he => step (expect _) fun _ _ =>
      L.bind hg.statement fun _ _ hb => L.pure (ht.node (.forIn hn he hb)))

theorem optionalBefore (hg : L.Grammars g g') (close : Punct) :
    L.runs (Option.Rel (Node.Alike m)) (g.optionalBefore close) (g'.optionalBefore close) :=
  choose (check _) (L.pure .none) (L.bind (expression hg) fun _ _ he => L.pure (.some he))

theorem forRest (hg : L.Grammars g g') (ht : t.Alike m t') {init init' : Option Node}
    (hinit : Option.Rel (Node.Alike m) init init') :
    L.nodes (g.forRest t init) (g'.forRest t' init') :=
  step (expect _) fun _ _ => L.bind (optionalBefore hg _) fun _ _ hc => step (expect _) fun _ _ =>
    L.bind (optionalBefore hg _) fun _ _ hs => step (expect _) fun _ _ => L.bind hg.statement
      fun _ _ hb => L.pure (ht.node (.for_ hinit hc hs hb))

theorem forStatement (hg : L.Grammars g g') : L.nodes g.forStatement g'.forStatement := by
  refine L.bind (expectKeyword _) fun _ _ ht => step (expect _) fun _ _ =>
    L.bind declarationKind? ?_
  rintro kind _ rfl
  cases kind with
  | some kind =>
    refine choose (startsForIn 1) ?_ ?_
    · exact L.bind L.advance fun _ _ hk => L.bind ident fun _ _ hi => forInRest hg ht
        (hk.node (.varDecl (.cons ⟨.declarator hi.node .none, hi.pos⟩ .nil)))
    · exact L.bind (varDecl hg kind) fun _ _ hd => forRest hg ht (.some hd)
  | none =>
    refine choose (startsForIn 0) ?_ ?_
    · exact L.bind ident fun _ _ hi => forInRest hg ht hi.node
    · exact L.bind (optionalBefore hg _) fun _ _ hi => forRest hg ht hi

/-! Switches and handlers. -/

theorem caseRest (hg : L.Grammars g g') (ht : t.Alike m t') {test test' : Option Node}
    (htest : Option.Rel (Node.Alike m) test test') :
    L.nodes (g.caseRest t test) (g'.caseRest t' test') :=
  step (expect _) fun _ _ => L.bind (statementsUntil hg fun _ _ => rfl) fun _ _ hb =>
    L.pure (ht.node (.case_ htest hb))

theorem switchCases (hg : L.Grammars g g') :
    L.runs (List.Forall₂ (Node.Alike m)) g.switchCases g'.switchCases := by
  unfold Grammar.switchCases
  rw [← hg.turns]
  refine collectFrom (S := Eq) ?_ g.turns rfl
  rintro hasDefault _ rfl
  refine L.bind L.peek fun t t' ht => ?_
  rcases ht.kind_cases with ⟨hk, hnot⟩ | ⟨w, w', hw, hw', -⟩
  · rw [← hk]
    split
    · exact L.pure (.stop .nil)
    · exact L.pure (.stop .nil)
    · exact step L.advance fun _ _ => L.bind (expression hg) fun _ _ he =>
        L.bind (caseRest hg ht (.some he)) fun _ _ hn => L.pure (.more (.cons hn .nil) rfl)
    · exact step L.advance fun _ _ => ite rfl (L.reject (.same rfl rfl ht.pos))
        (L.bind (caseRest hg ht .none) fun _ _ hn => L.pure (.more (.cons hn .nil) rfl))
    · exact unexpected ht
  · simp only [hw, hw']
    exact unexpected ht

theorem switchStatement (hg : L.Grammars g g') : L.nodes g.switchStatement g'.switchStatement :=
  L.bind (expectKeyword _) fun _ _ ht => L.bind (parenthesized hg) fun _ _ hd =>
    step (expect _) fun _ _ => L.bind (switchCases hg) fun _ _ hc => step (expect _) fun _ _ =>
      L.pure (ht.node (.switch_ hd hc))

theorem catchParam? :
    L.runs (Option.Rel (Node.Alike m)) Grammar.catchParam? Grammar.catchParam? :=
  choose (accept _) (L.bind ident fun _ _ hi => step (expect _) fun _ _ => L.pure (.some hi.node))
    (L.pure .none)

/-- Alike parameters and blocks of handlers. -/
abbrev Handlers (m : Matching) (r r' : Option Node × Option Node) : Prop :=
  Option.Rel (Node.Alike m) r.1 r'.1 ∧ Option.Rel (Node.Alike m) r.2 r'.2

theorem handler? (hg : L.Grammars g g') : L.runs (Handlers m) g.handler? g'.handler? :=
  choose (acceptKeyword _)
    (L.bind catchParam? fun _ _ hp => L.bind (block hg) fun _ _ hb => L.pure ⟨hp, .some hb⟩)
    (L.pure ⟨.none, .none⟩)

theorem finalizer? (hg : L.Grammars g g') :
    L.runs (Option.Rel (Node.Alike m)) g.finalizer? g'.finalizer? :=
  choose (acceptKeyword _) (L.bind (block hg) fun _ _ hb => L.pure (.some hb)) (L.pure .none)

theorem isNone_eq {x x' : Option Node} (h : Option.Rel (Node.Alike m) x x') :
    x.isNone = x'.isNone := by
  cases h with
  | some => rfl
  | none => rfl

theorem tryStatement (hg : L.Grammars g g') : L.nodes g.tryStatement g'.tryStatement := by
  refine L.bind (expectKeyword _) fun _ _ ht => L.bind (block hg) fun _ _ hb =>
    L.bind (handler? hg) ?_
  rintro ⟨caught, handler⟩ ⟨caught', handler'⟩ ⟨hcaught, hhandler⟩
  refine L.bind (finalizer? hg) fun _ _ hf => ite ?_ (L.reject (.same rfl rfl ht.pos))
    (L.pure (ht.node (.try_ hb hcaught hhandler hf)))
  rw [isNone_eq hhandler, isNone_eq hf]

/-! All statements. -/

theorem expressionStatement (hg : L.Grammars g g') :
    L.nodes g.expressionStatement g'.expressionStatement :=
  L.bind L.peek fun _ _ ht => L.bind (expressionRule hg) fun _ _ he => step semicolon fun _ _ =>
    L.pure (ht.node (.exprStmt he))

theorem otherStatement (hg : L.Grammars g g') : L.nodes g.otherStatement g'.otherStatement :=
  choose isAsyncFunction (step L.advance fun _ _ => function hg .declaration true)
    (expressionStatement hg)

theorem simpleStatement (hg : L.Grammars g g') :
    L.nodes g.simpleStatement g'.simpleStatement := by
  refine L.bind L.peek fun t t' ht => ?_
  rcases ht.kind_cases with ⟨hk, hnot⟩ | ⟨w, w', hw, hw', -⟩
  · rw [← hk]
    split
    · exact block hg
    · exact step L.advance fun _ _ => L.pure (ht.node .empty)
    · exact function hg .declaration false
    · exact class_ hg false
    · exact returnStatement hg
    · exact ifStatement hg
    · exact whileStatement hg
    · exact doWhileStatement hg
    · exact forStatement hg
    · exact switchStatement hg
    · exact wordStatement .break_
    · exact wordStatement .continue_
    · exact tryStatement hg
    · exact throwStatement hg
    · exact wordStatement .debugger
    · exact L.reject (.same rfl rfl ht.pos)
    · exact L.reject (.same rfl rfl ht.pos)
    · exact L.reject (.same rfl rfl ht.pos)
    · exact otherStatement hg
  · simp only [hw, hw']
    exact otherStatement hg

theorem statementRule (hg : L.Grammars g g') : L.nodes g.statementRule g'.statementRule := by
  refine L.bind declarationKind? ?_
  rintro kind _ rfl
  cases kind with
  | some kind => exact varStatement hg kind
  | none => exact simpleStatement hg

/-! Levels. -/

theorem Grammars.exhausted : L.Grammars Grammar.exhausted Grammar.exhausted :=
  ⟨rfl, L.exhausted, L.exhausted, L.exhausted, L.exhausted, L.exhausted⟩

theorem Grammars.withTurns (hg : L.Grammars g g') {k k' : Nat} (h : k = k') :
    L.Grammars { g with turns := k } { g' with turns := k' } :=
  ⟨h, hg.statement, hg.assignment, hg.unary, hg.subscripted, hg.atom⟩

theorem Grammars.next (hg : L.Grammars g g') : L.Grammars g.next g'.next := by
  have hmore := hg.withTurns (congrArg (· + 1) hg.turns)
  exact ⟨hmore.turns, statementRule hmore, assignmentRule hmore, unaryRule hmore,
    subscriptedRule hmore, atomRule hmore⟩

/-- Every level of the grammar is like itself. -/
theorem level (L : Likeness m) (n : Nat) : L.Grammars (Grammar.level n) (Grammar.level n) := by
  induction n with
  | zero => exact .exhausted
  | succ n ih => exact ih.next

theorem program (hg : L.Grammars g g') :
    L.runs (List.Forall₂ (Node.Alike m)) g.program g'.program :=
  statementsUntil hg fun _ _ => rfl

end JsClass.Likeness
