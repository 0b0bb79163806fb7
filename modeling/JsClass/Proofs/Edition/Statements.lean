import JsClass.Proofs.Edition.Expressions
import JsClass.Proofs.Grammar.Statements

/-! Statements in two editions, and from them whole programs. -/
namespace JsClass.Grammar

open JsClass.Parser

variable {e : Edition} {g : Grammar}

-- A node that is built fits an edition if its parts do.
attribute [local simp] Shape.children Shape.fields Field.children

/-! Declarations. -/

theorem declarationKind?_ageless : declarationKind?.Ageless := by
  refine .bind .peek fun x => ?_
  split
  · exact .pure _
  · exact .pure _
  · exact .bind (.peekAt _) fun _ => .ite (.pure _) (.pure _)
  · exact .pure _

theorem startsForIn_ageless (offset : Nat) : (startsForIn offset).Ageless :=
  .bind (.peekAt _) fun _ => .bind (.peekAt _) fun _ => .pure _

theorem declarator_carries (hg : g.Carries e) (kind : VarKind) :
    (g.declarator kind).CarriesNode e .free := by
  refine .step .ident fun name => .ite (fun _ => .step .peek fun _ => .reject _ _) fun _ => ?_
  refine .bind (initializer?_carries hg) fun init => ?_
  cases init with
  | some init =>
    refine .node ?_
    simp +contextual [Node.AllFit]
  | none =>
    refine .ite (fun _ => .stay .peek (fun h => (peek_eq_ok.1 h).2) fun _ => .reject _ _)
      fun _ => ?_
    exact .pure fun _ _ _ hE => ⟨⟨trivial, by simp⟩, hE⟩

theorem varDecl_carries (hg : g.Carries e) (kind : VarKind) :
    (g.varDecl kind).CarriesNode e .free := by
  refine .step .advance fun x => .bind (collect_carries (V := Node.Fits e) (S := .anywhere)
    (T := .free) ?_ _) fun ns => .node ?_
  · refine .bind (declarator_carries hg kind) fun d => .accept Site.free_punct
      (.pure fun _ _ hV hE => ⟨⟨trivial, ?_⟩, trivial⟩) (.pure fun _ _ hV hE => ⟨⟨trivial, ?_⟩, hE⟩)
    · exact hV d (by simp [Turn.items])
    · exact hV d (by simp [Turn.items])
  · simp +contextual [Node.AllFit, Field.word]

theorem varStatement_carries (hg : g.Carries e) (kind : VarKind) :
    (g.varStatement kind).CarriesNode e .anywhere :=
  .bind (varDecl_carries hg kind) fun _ => .semicolon fun _ =>
    .pure fun _ _ hV _ => ⟨⟨trivial, hV⟩, trivial⟩

/-! Branches and loops. -/

theorem returnStatement_carries (hg : g.Carries e) : g.returnStatement.CarriesNode e .anywhere := by
  refine .step (.expectKeyword _) fun x => .context (fun _ => rfl) fun _ =>
    .ite (fun _ => .reject _ _) fun _ => ?_
  refine .step (.check _) fun _ => .step .canInsertSemicolon fun _ => .ite (fun _ => ?_) fun _ => ?_
  · exact .ageless (.bind .semicolon fun _ => .pure _)
  · refine .bind (expression_carries hg) fun value => .semicolon fun _ => .node ?_
    simp +contextual [Node.AllFit]

theorem ifStatement_carries (hg : g.Carries e) : g.ifStatement.CarriesNode e .anywhere := by
  refine .step (.expectKeyword _) fun x => .bind (parenthesized_carries hg) fun condition =>
    .bind hg.statement fun consequent => .step (.acceptKeyword _) fun _ =>
      .ite (fun _ => .bind hg.statement fun alternate => .node ?_) fun _ => .node ?_
  · simp +contextual [Node.AllFit]
  · simp +contextual [Node.AllFit]

theorem whileStatement_carries (hg : g.Carries e) : g.whileStatement.CarriesNode e .anywhere := by
  refine .step (.expectKeyword _) fun x => .bind (parenthesized_carries hg) fun condition =>
    .bind hg.statement fun body => .node ?_
  simp +contextual [Node.AllFit]

theorem doWhileStatement_carries (hg : g.Carries e) :
    g.doWhileStatement.CarriesNode e .anywhere := by
  refine .step (.expectKeyword _) fun x => .bind hg.statement fun body =>
    .step (.expectKeyword _) fun _ => .bind (parenthesized_carries hg) fun condition =>
      .step (.accept _) fun _ => .node ?_
  simp +contextual [Node.AllFit]

theorem forInRest_carries (hg : g.Carries e) (x : Token) (left : Node) :
    (g.forInRest x left).CarriesNode e .anywhere := by
  refine .step (.acceptKeyword _) fun _ => .ite (fun _ => ?_) fun _ => ?_
  · refine .bind (expression_carries hg) fun right => .expect Site.free_punct fun _ =>
      .bind hg.statement fun body => .node ?_
    simp +contextual [Node.AllFit]
  · refine .step .advance fun _ => .bind hg.assignment fun right =>
      .expect Site.free_punct fun _ => .bind hg.statement fun body => .node ?_
    simp +contextual [Node.AllFit]

theorem optionalBefore_carries (hg : g.Carries e) (close : Punct) :
    (g.optionalBefore close).Carries e True .anywhere (fun n => Node.AllFit e n.toList)
      fun _ => .free := by
  refine .check (fun _ => trivial) (.ageless (.pure _)) ?_
  exact .bind (expression_carries hg) fun x => .pure fun _ _ hV hE =>
    ⟨⟨trivial, by simpa using hV⟩, hE⟩

theorem forRest_carries (hg : g.Carries e) (x : Token) (init : Option Node) :
    (g.forRest x init).Carries e (Node.AllFit e init.toList) .free (Node.Fits e)
      fun _ => .anywhere := by
  refine .expect Site.free_punct fun _ => .bind (optionalBefore_carries hg _) fun condition =>
    .expect Site.free_punct fun _ => .bind (optionalBefore_carries hg _) fun step =>
      .expect Site.free_punct fun _ => .bind hg.statement fun body => .node ?_
  simp +contextual [Node.AllFit]

theorem forStatement_carries (hg : g.Carries e) : g.forStatement.CarriesNode e .anywhere := by
  refine .step (.expectKeyword _) fun x => .step (.expect _) fun _ =>
    .step declarationKind?_ageless fun kind => ?_
  cases kind with
  | some kind =>
    refine .step (startsForIn_ageless _) fun _ => .ite (fun _ => ?_) fun _ => ?_
    · exact .step .advance fun keyword => .step .ident fun name => forInRest_carries hg x _
    · refine .bind (varDecl_carries hg kind) fun decl => ?_
      exact (forRest_carries hg x (some decl)).mono (fun h => ⟨trivial, by simpa using h⟩)
        (fun _ _ h => h) fun _ _ _ h => h
  | none =>
    refine .step (startsForIn_ageless _) fun _ => .ite (fun _ => ?_) fun _ => ?_
    · exact .step .ident fun name => forInRest_carries hg x _
    · refine .bind (optionalBefore_carries hg _) fun init => ?_
      exact (forRest_carries hg x init).mono (fun h => ⟨trivial, h⟩) (fun _ _ h => h)
        fun _ _ _ h => h

/-! Switches and handlers. -/

theorem caseRest_carries (hg : g.Carries e) (x : Token) (test : Option Node) :
    (g.caseRest x test).Carries e (Node.AllFit e test.toList) .free (Node.Fits e)
      fun _ => .anywhere := by
  refine .expect Site.free_punct fun _ => .bind (statementsUntil_carries hg _) fun body => .node ?_
  simp +contextual [Node.AllFit]

theorem switchCases_carries (hg : g.Carries e) :
    g.switchCases.Carries e True .anywhere (Node.AllFit e) fun _ => .anywhere := by
  refine collectFrom_carries (V := Node.Fits e) (T := .anywhere) (fun hasDefault => ?_) _ _
  refine .step .peek fun x => ?_
  split
  · exact .pure fun _ _ _ _ => ⟨trivial, trivial⟩
  · exact .pure fun _ _ _ _ => ⟨trivial, trivial⟩
  · refine .step .advance fun _ => .bind (expression_carries hg) fun test => ?_
    refine ((caseRest_carries hg x (some test)).bind_also (R := True) fun n => ?_).mono
      (fun h => ⟨trivial, by simpa using h.2⟩) (fun _ _ h => h) fun _ _ _ h => h
    exact .pure fun _ _ hV _ => ⟨⟨trivial, hV n (by simp [Turn.items])⟩, trivial⟩
  · refine .step .advance fun _ => .ite (fun _ => .reject _ _) fun _ => ?_
    have hrest : (g.caseRest x none).CarriesNode e .anywhere :=
      (caseRest_carries hg x none).mono (fun _ => trivial) (fun _ _ _ => trivial) fun _ _ _ h => h
    exact hrest.bind fun n => .pure fun _ _ hV _ =>
      ⟨⟨trivial, hV n (by simp [Turn.items])⟩, trivial⟩
  · exact .unexpected _

theorem switchStatement_carries (hg : g.Carries e) : g.switchStatement.CarriesNode e .anywhere := by
  refine .step (.expectKeyword _) fun x => .bind (parenthesized_carries hg) fun discriminant =>
    .step (.expect _) fun _ => .bind (switchCases_carries hg) fun cases =>
      .step (.expect _) fun _ => .node ?_
  simp +contextual [Node.AllFit]

theorem wordStatement_ageless (shape : Shape Node) : (wordStatement shape).Ageless :=
  .bind .advance fun _ => .bind .semicolon fun _ => .pure _

theorem throwStatement_carries (hg : g.Carries e) : g.throwStatement.CarriesNode e .anywhere := by
  refine .step (.expectKeyword _) fun x => .step .peek fun _ => .ite (fun _ => .reject _ _)
    fun _ => .bind (expression_carries hg) fun argument => .semicolon fun _ => .node ?_
  simp +contextual [Node.AllFit]

theorem catchParam?_ageless : catchParam?.Ageless :=
  .bind (.accept _) fun _ => .ite (.bind .ident fun _ => .bind (.expect _) fun _ => .pure _)
    (.pure _)

theorem handler?_carries (hg : g.Carries e) :
    g.handler?.Carries e True .anywhere (fun h => Node.AllFit e h.2.toList)
      fun _ => .anywhere := by
  refine .step (.acceptKeyword _) fun _ => .ite (fun _ => ?_) fun _ => .ageless (.pure _)
  exact .step catchParam?_ageless fun param => .bind (block_carries hg) fun block =>
    .pure fun _ _ hV _ => ⟨⟨trivial, by simpa using hV⟩, trivial⟩

theorem finalizer?_carries (hg : g.Carries e) :
    g.finalizer?.Carries e True .anywhere (fun n => Node.AllFit e n.toList)
      fun _ => .anywhere := by
  refine .step (.acceptKeyword _) fun _ => .ite (fun _ => ?_) fun _ => .ageless (.pure _)
  exact .bind (block_carries hg) fun block =>
    .pure fun _ _ hV _ => ⟨⟨trivial, by simpa using hV⟩, trivial⟩

theorem tryStatement_carries (hg : g.Carries e) : g.tryStatement.CarriesNode e .anywhere := by
  refine .step (.expectKeyword _) fun x => .bind (block_carries hg) fun block =>
    .bind (handler?_carries hg) fun handler => .bind (finalizer?_carries hg) fun finalizer =>
      .ite (fun _ => .reject _ _) fun _ => .node ?_
  simp +contextual [Node.AllFit]

/-! All statements. -/

/-- A statement that begins with a name ends before no function on the same line. -/
theorem expressionStatement_carries (hg : g.Carries e) (hs : g.Sound) :
    g.expressionStatement.Carries e True (settled e) (Node.Fits e) fun _ => .anywhere := by
  refine .peek fun x => .unlooked (.bind (expressionRule_carries hg hs) fun value =>
    .semicolon fun _ => .node ?_)
  simp +contextual [Node.AllFit]

theorem otherStatement_carries (hg : g.Carries e) (hs : g.Sound) :
    g.otherStatement.CarriesNode e .anywhere :=
  (asyncChoice_carries hg .declaration (expressionStatement_carries hg hs)).anywhere

theorem simpleStatement_carries (hg : g.Carries e) (hs : g.Sound) :
    g.simpleStatement.CarriesNode e .anywhere := by
  refine .step .peek fun x => ?_
  split
  · exact block_carries hg
  · exact .ageless (.bind .advance fun _ => .pure _)
  · exact (function_carries hg _ _).mono (fun _ => trivial) (fun _ _ h => h) fun _ _ _ h => h
  · exact class_carries hg hs _
  · exact returnStatement_carries hg
  · exact ifStatement_carries hg
  · exact whileStatement_carries hg
  · exact doWhileStatement_carries hg
  · exact forStatement_carries hg
  · exact switchStatement_carries hg
  · exact .ageless (wordStatement_ageless _)
  · exact .ageless (wordStatement_ageless _)
  · exact tryStatement_carries hg
  · exact throwStatement_carries hg
  · exact .ageless (wordStatement_ageless _)
  · exact .reject _ _
  · exact .reject _ _
  · exact .reject _ _
  · exact otherStatement_carries hg hs

theorem statementRule_carries (hg : g.Carries e) (hs : g.Sound) :
    g.statementRule.CarriesNode e .anywhere := by
  refine .step declarationKind?_ageless fun kind => ?_
  cases kind with
  | some kind => exact varStatement_carries hg kind
  | none => exact simpleStatement_carries hg hs

/-! Levels and programs. -/

theorem exhausted_carries : exhausted.Carries e where
  statement := .fail _
  assignment := .fail _
  unary := .fail _
  subscripted := .fail _
  atom := .fail _

/-- The number of turns does not matter. -/
theorem Carries.withTurns (hg : g.Carries e) (turns : Nat) : { g with turns }.Carries e :=
  ⟨hg.statement, hg.assignment, hg.unary, hg.subscripted, hg.atom⟩

theorem Carries.next (hg : g.Carries e) (hs : g.Sound) : g.next.Carries e where
  statement := statementRule_carries (hg.withTurns _) (hs.withTurns _)
  assignment := (assignmentRule_carries (hg.withTurns _) (hs.withTurns _)).anywhere
  unary := (unaryRule_carries (hg.withTurns _) (hs.withTurns _)).anywhere
  subscripted := (subscriptedRule_carries (hg.withTurns _) (hs.withTurns _)).anywhere
  atom := (atomRule_carries (hg.withTurns _) (hs.withTurns _)).anywhere

theorem level_carries (n : Nat) : (level n).Carries e := by
  induction n with
  | zero => exact exhausted_carries
  | succ n ih => exact ih.next (level_sound n)

end JsClass.Grammar

namespace JsClass

/-- A program with nothing newer than an edition in it is read in that edition too. -/
theorem TokenStream.statements_carries {s : TokenStream} {d : Dialect} {options : Options}
    {body : List Node} {t : State} {e : Edition} (h : s.statements d options = .ok body t)
    (hfits : Node.AllFit e body) : s.statements d { options with edition := e } = .ok body t := by
  rw [statements, Grammar.program] at h
  exact (Grammar.statementsUntil_carries (Grammar.level_carries _) _ h hfits trivial).2.2

end JsClass
