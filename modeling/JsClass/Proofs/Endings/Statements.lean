import JsClass.Proofs.Endings.Expressions

/-! Statements, and the rules tied together. -/
namespace JsClass.Endings

open JsClass.Parser

variable {β : Type} {q : Endings} {g : Grammar} {c : Context} {s t u : State} {S : Site}

/-! Declarations of variables. -/

theorem declarationKind?_looks : q.Looks 0 Grammar.declarationKind? := by
  refine .glance (b := none) (fun z => ?_) fun z hz c s => ?_
  · split
    · exact .pure _
    · exact .pure _
    · refine .test (p := pure none) (fun y hy => ?_) (fun y => ?_) 1
      · rcases hy with hy | hy | hy | hy | hy <;> rw [hy] <;> rfl
      · split
        · exact .pure _
        · exact .pure _
    · exact .pure _
  · rcases hz with hz | hz | hz | hz | hz <;> rw [hz] <;> rfl

/-- A declaration is announced by its own word. -/
theorem declarationKind?_announced {kind : VarKind}
    (h : Grammar.declarationKind? c s = .ok (some kind) t) :
    (c.next s).kind ≠ .eof ∧ (c.next s).kind ≠ .punct .semicolon := by
  simp only [Grammar.declarationKind?, bind_eq_ok, peek_eq_ok] at h
  obtain ⟨_, _, ⟨rfl, rfl⟩, h⟩ := h
  constructor
  · intro hend
    simp [hend] at h
  · intro hend
    simp [hend] at h

/-- Where a word comes next that is taken. -/
def announced : Site := fun c s => (c.next s).kind ≠ .eof ∧ (c.next s).kind ≠ .punct .semicolon

theorem declarationKind? {f : Option VarKind → Parser β} {m : β → Nat} {T e : β → Prop}
    (hsome : ∀ kind, q.Runs announced m T e (f (some kind)))
    (hnone : q.Runs .anywhere m T e (f none)) :
    q.Runs S m T e (Grammar.declarationKind? >>= f) := by
  intro c s b t hc _ h
  obtain ⟨kind, hkind, hsame⟩ := declarationKind?_looks (q := q) (s := s) hc
  rw [bind_apply, hkind] at h
  have hrun : q.Continues m T e s b t (f kind (q.context c) (q.state s)) := by
    cases kind with
    | some kind => exact hsome kind hc (declarationKind?_announced hkind) h
    | none => exact hnone hc trivial h
  refine ⟨hrun.suffix, hrun.takes, hrun.last, fun hleft => ?_⟩
  rw [bind_apply, hsame ((hleft.mono (Nat.zero_le _)).since hrun.suffix)]
  exact hrun.resumes hleft

theorem advance_announced : q.Takes announced advance := by
  intro c s z t hc hS h
  have hrun := Runs.advance_filled (q := q) hc hS.1 h
  obtain ⟨rfl, -⟩ := advance_eq_ok.1 h
  exact ⟨hrun.suffix, hrun.takes, fun _ => hrun.last hS.2, hrun.resumes⟩

theorem declarator (hg : q.Keeps g) (kind : VarKind) : q.Takes S (g.declarator kind) := by
  refine .take (V := fun _ => False) .ident fun name => .ite (fun _ => .rejectNext _) fun _ =>
    .bind (initializer? hg) fun init => ?_
  cases init with
  | some init => exact .done
  | none => exact .ite (fun _ => .rejectNext _) fun _ => .done

theorem declarators (hg : q.Keeps g) (kind : VarKind) :
    q.Steady .anywhere
      (Parser.collect g.turns do
        let d ← g.declarator kind
        if ← accept .comma then return .more [d] () else return .stop [d]) :=
  collect (.bind (declarator hg kind) fun _ => .accept_ite (by decide) .done .done)

theorem varDecl (hg : q.Keeps g) (kind : VarKind) : q.Takes announced (g.varDecl kind) :=
  .take advance_announced fun _ => .bind (declarators hg kind) fun _ => .done

theorem varStatement (hg : q.Keeps g) (kind : VarKind) :
    q.Ends announced (fun _ => True) (g.varStatement kind) :=
  .take (varDecl hg kind) fun _ => .map .semicolon

/-! Simple statements. -/

theorem returnStatement (hg : q.Keeps g) : q.Ends S (fun _ => True) g.returnStatement :=
  .take (V := fun _ => False) (.expectKeyword _) fun _ => .context (fun _ => rfl) fun _ =>
    .ite (fun _ => .reject _ _) fun _ => .look_at (.check_inner _)
      (fun _ => Or.inl (Nat.le_refl _)) fun _ => .look_at .canInsertSemicolon
        (fun _ => Or.inl (Nat.le_refl _)) fun _ => .ite (fun _ => .map .semicolon)
          fun _ => .bind (expression hg) fun _ => .map .semicolon

theorem ifStatement (hg : q.Keeps g) : q.Ends S (fun _ => True) g.ifStatement :=
  .take (V := fun _ => False) (.expectKeyword _) fun _ => .bind (parenthesized hg) fun _ =>
    .also hg.statement fun _ => .acceptKeyword_ite (.map hg.statement) .done

theorem whileStatement (hg : q.Keeps g) : q.Ends S (fun _ => True) g.whileStatement :=
  .take (.expectKeyword _) fun _ => .bind (parenthesized hg) fun _ => .map hg.statement

theorem doWhileStatement (hg : q.Keeps g) : q.Ends S (fun _ => True) g.doWhileStatement :=
  .take (.expectKeyword _) fun _ => .also (T := fun _ => True) hg.statement fun _ =>
    .take (.expectKeyword _) fun _ => .bind (parenthesized hg) fun _ =>
      .also .accept_semicolon fun _ => .done

theorem wordStatement (shape : Shape Node) :
    q.Ends announced (fun _ => True) (Grammar.wordStatement shape) :=
  .take advance_announced fun _ => .map .semicolon

theorem throwStatement (hg : q.Keeps g) : q.Ends S (fun _ => True) g.throwStatement :=
  .take (.expectKeyword _) fun _ => .peek fun _ => .ite (fun _ => .reject _ _) fun _ =>
    .take (expression hg) fun _ => .map .semicolon

/-! Loops. -/

theorem forInRest (hg : q.Keeps g) (z : Token) (left : Node) :
    q.Ends S (fun _ => True) (g.forInRest z left) :=
  .acceptKeyword_ite
    (.bind (expression hg) fun _ => .bind (.expect nofun) fun _ => .map hg.statement)
    (.also .advance_inner fun _ => .bind hg.assignment fun _ => .bind (.expect nofun) fun _ =>
      .map hg.statement)

theorem optionalBefore (hg : q.Keeps g) (close : Punct) :
    q.Inner S (fun _ => False) (g.optionalBefore close) :=
  .look_at (.check_inner close) (fun _ => Or.inl (Nat.le_refl _)) fun _ => .ite (fun _ => .done)
    fun _ => .bind (expression hg) fun _ => .done

theorem forRest (hg : q.Keeps g) (z : Token) (init : Option Node) :
    q.Ends S (fun _ => True) (g.forRest z init) :=
  .also .expect_semicolon fun _ => .also (optionalBefore hg _).ends fun _ =>
    .also .expect_semicolon fun _ => .also (optionalBefore hg _).ends fun _ =>
      .bind (.expect nofun) fun _ => .map hg.statement

theorem startsForIn (offset : Nat) : q.Looks offset (Grammar.startsForIn offset) := by
  have hname : ∀ z : Token, z.kind.EndsExpression → z.kind.isName = false := by
    rintro z (hz | hz | hz | hz | hz) <;> rw [hz] <;> rfl
  have hnext : ∀ z : Token, z.kind.EndsExpression →
      (z.kind == .keyword .in_ || z.kind == .name "of") = false := by
    rintro z (hz | hz | hz | hz | hz) <;> simp [hz]
  refine fun c s hc => ⟨_, rfl, fun hoffset => ?_⟩
  show Reply.ok (_ && _) _ = .ok (_ && _) _
  rw [drop_test (P := fun z => z.kind.isName) hname hc hoffset]
  by_cases hmore : q.Left (offset + 1) s
  · rw [drop_test (P := fun z => z.kind == .keyword .in_ || z.kind == .name "of") hnext hc hmore]
  · have hend := hname _ (drop_ends hc hoffset hmore).1
    rw [hend, Bool.false_and, Bool.false_and]

theorem forStatement (hg : q.Keeps g) : q.Ends S (fun _ => True) g.forStatement := by
  refine .take (.expectKeyword _) fun z => .bind (.expect nofun) fun _ => declarationKind?
    (T := fun _ => True) (fun kind => ?_) ?_
  · exact .look_at (startsForIn 1) (fun _ => Or.inl (Nat.le_refl _)) fun _ => .ite
      (fun _ => .also .advance_inner fun _ => .bind .ident fun _ => forInRest hg z _)
      fun _ => .bind (varDecl hg kind) fun _ => forRest hg z _
  · exact .look (startsForIn 0) fun _ => .ite (fun _ => .bind .ident fun _ => forInRest hg z _)
      fun _ => .also (optionalBefore hg _).ends fun _ => forRest hg z _

/-! Switches and handlers. -/

theorem caseRest (hg : q.Keeps g) (z : Token) (test : Option Node) :
    q.Ends S (fun _ => False) (g.caseRest z test) :=
  .bind (.expect nofun) fun _ => .also (statementsUntil hg _) fun _ => .done

theorem switchCases (hg : q.Keeps g) : q.Ends .anywhere (fun _ => False) g.switchCases := by
  refine collectFrom (U := fun _ => False) (fun hasDefault => .peek_inner fun z => ?_) _
  split
  · exact .done
  · exact .done
  · next hz =>
    exact .advance (by simp [hz]) (by simp [hz]) fun _ => .bind (expression hg) fun _ =>
      .also (caseRest hg z _) fun _ => .done
  · next hz =>
    exact .advance (by simp [hz]) (by simp [hz]) fun _ => .ite (fun _ => .reject _ _) fun _ =>
      .also (caseRest hg z _) fun _ => .done
  · exact .unexpected _

theorem switchStatement (hg : q.Keeps g) : q.Takes S g.switchStatement :=
  .take (.expectKeyword _) fun _ => .bind (parenthesized hg) fun _ => .bind (.expect nofun)
    fun _ => .inner (switchCases hg) fun _ => .map (.expect nofun)

theorem catchParam? : q.Steady S Grammar.catchParam? :=
  .accept_ite (by decide) (.bind .ident fun _ => .bind (.expect nofun) fun _ => .done) .done

theorem handler? (hg : q.Keeps g) : q.Steady S g.handler? :=
  .acceptKeyword_ite (.bind catchParam? fun _ => .bind (block hg) fun _ => .done) .done

theorem finalizer? (hg : q.Keeps g) : q.Steady S g.finalizer? :=
  .acceptKeyword_ite (.map (block hg)) .done

theorem tryStatement (hg : q.Keeps g) : q.Takes S g.tryStatement :=
  .take (.expectKeyword _) fun _ => .bind (block hg) fun _ => .bind (handler? hg) fun _ =>
    .bind (finalizer? hg) fun _ => .ite (fun _ => .reject _ _) fun _ => .done

/-! All statements. -/

theorem expressionStatement (hg : q.Keeps g) : q.Ends S (fun _ => True) g.expressionStatement :=
  .peek fun _ => .take (expressionRule hg) fun _ => .map .semicolon

theorem otherStatement (hg : q.Keeps g) : q.Ends S (fun _ => True) g.otherStatement :=
  asyncChoice hg .declaration (expressionStatement hg)

theorem simpleStatement (hg : q.Keeps g) : q.Ends S (fun _ => True) g.simpleStatement := by
  refine .peek fun z => ?_
  have hword : ∀ {k : Keyword} (shape : Shape Node), z.kind = .keyword k →
      q.Ends (.before z) (fun _ => True) (Grammar.wordStatement shape) := by
    refine fun shape hz => (wordStatement shape).site fun c s hbefore => ?_
    have hbefore : c.next s = z := hbefore
    simp [announced, hbefore, hz]
  split
  · exact (block hg).inside.ends
  · next hz => exact .advance_ends (by simp [hz]) fun _ => .done
  · exact (function hg _ _).inside.ends
  · exact (class_ hg _).inside.ends
  · exact returnStatement hg
  · exact ifStatement hg
  · exact whileStatement hg
  · exact doWhileStatement hg
  · exact forStatement hg
  · exact (switchStatement hg).inside.ends
  · next hz => exact hword _ hz
  · next hz => exact hword _ hz
  · exact (tryStatement hg).inside.ends
  · exact throwStatement hg
  · next hz => exact hword _ hz
  · exact .reject _ _
  · exact .reject _ _
  · exact .reject _ _
  · exact otherStatement hg

theorem statementRule (hg : q.Keeps g) : q.Ends S (fun _ => True) g.statementRule :=
  declarationKind? (varStatement hg) (simpleStatement hg)

/-! Levels. -/

theorem Keeps.withTurns (hg : q.Keeps g) (turns : Nat) : q.Keeps { g with turns } :=
  ⟨hg.nests.withTurns turns, hg.statement, hg.assignment, hg.unary, hg.subscripted, hg.atom⟩

theorem Keeps.next (hg : q.Keeps g) : q.Keeps g.next := by
  have hmore := hg.withTurns (g.turns + 1)
  exact ⟨hg.nests.next, statementRule hmore, assignmentRule hmore, unaryRule hmore,
    subscriptedRule hmore, atomRule hmore⟩

theorem exhausted : q.Keeps .exhausted := by
  have hfail (m : Node → Nat) (e : Node → Prop) :
      q.Runs .anywhere m (fun _ => True) e (fail .exhausted) :=
    .fails fun _ _ _ _ h => fail_eq_ok.1 h
  exact ⟨Grammar.exhausted_nests, hfail _ _, hfail _ _, hfail _ _, hfail _ _, hfail _ _⟩

/-- Every level does the same with either ending. -/
theorem Keeps.level (q : Endings) (n : Nat) : q.Keeps (.level n) := by
  induction n with
  | zero => exact exhausted
  | succ n ih => exact ih.next

end JsClass.Endings
