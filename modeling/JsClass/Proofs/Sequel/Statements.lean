import JsClass.Proofs.Nesting.Statements
import JsClass.Proofs.Sequel.Expressions

/-! Statements, and the rules tied together. -/
namespace JsClass.Sequel

open JsClass.Parser

variable {q : Sequel} {g g' : Grammar} {c : Context} {s t u : State} {S : Site}

/-! Declarations of variables. -/

theorem declarationKind?_looks :
    q.Looks 0 Grammar.declarationKind? Grammar.declarationKind? := by
  refine .glance (fun z => ?_) fun w z hw hz => ?_
  · split
    · exact .pure _
    · exact .pure _
    · refine .test (p := pure none) (fun y hy => ?_) (fun y => ?_) 1
      · rcases hy with hy | hy <;> rw [hy] <;> rfl
      · split
        · exact .pure _
        · exact .pure _
    · exact .pure _
  · rcases hz with hz | hz <;> rw [hw, hz] <;> exact .pure _

/-- A declaration is announced by a token that is there. -/
theorem declarationKind?_filled {kind : VarKind}
    (h : Grammar.declarationKind? c s = .ok (some kind) t) : Site.filled c s := by
  intro hend
  simp only [Grammar.declarationKind?, bind_eq_ok, peek_eq_ok] at h
  obtain ⟨_, _, ⟨rfl, rfl⟩, h⟩ := h
  simp [hend] at h

theorem declarationKind? {f f' : Option VarKind → Parser β} {m : β → Nat} {T : β → Prop} {e : Prop}
    (hsome : ∀ kind, q.Runs .filled m T e (f (some kind)) (f' (some kind)))
    (hnone : q.Runs .anywhere m T e (f none) (f' none)) :
    q.Runs S m T e (Grammar.declarationKind? >>= f) (Grammar.declarationKind? >>= f') := by
  intro c s b t hc _ h
  refine .look declarationKind?_looks hc (Nat.zero_le _) h fun kind hkind hrest => ?_
  cases kind with
  | some kind => exact hsome kind hc (declarationKind?_filled hkind) hrest
  | none => exact hnone hc trivial hrest

theorem declarator (hg : q.Grammars g g') (kind : VarKind) :
    q.Takes S (g.declarator kind) (g'.declarator kind) := by
  refine .take (V := fun _ => False) .ident fun name => .ite (fun _ => ?_) fun _ =>
    .bind (initializer? hg) fun init => ?_
  · exact .glance (fun _ => .reject _ _) fun _ _ _ _ => .reject _ _
  · cases init with
    | some init => exact .done
    | none =>
      exact .ite (fun _ => .glance (fun _ => .reject _ _) fun _ _ _ _ => .reject _ _) fun _ => .done

theorem declarators (hg : q.Grammars g g') (kind : VarKind) :
    q.Steady .anywhere
      (Parser.collect g.turns do
        let d ← g.declarator kind
        if ← accept .comma then return .more [d] () else return .stop [d])
      (Parser.collect g'.turns do
        let d ← g'.declarator kind
        if ← accept .comma then return .more [d] () else return .stop [d]) :=
  collect hg.turns (.bind (declarator hg kind) fun _ => .accept_ite nofun .done .done)

theorem varStatement (hg : q.Grammars g g') (kind : VarKind) :
    q.Ends .filled (g.varStatement kind) (g'.varStatement kind) :=
  .take (.take .advance_filled fun _ => .bind (declarators hg kind) fun _ => .done) fun _ =>
    .map .semicolon

theorem varDecl (hg : q.Grammars g g') (kind : VarKind) :
    q.Inner S (fun _ => False) (g.varDecl kind) (g'.varDecl kind) :=
  .also .advance_inner fun _ => .bind (declarators hg kind) fun _ => .done

/-! Simple statements. -/

/-- Before what ends a statement, a value is left out. -/
theorem returns_nothing {x y : Parser β} (hk : (c.next s).kind.EndsStatement) :
    (do
      let empty ← check .semicolon
      let ended ← canInsertSemicolon
      if empty || ended then x else y : Parser β) c s = x c s := by
  have hcheck : check .semicolon c s = .ok ((c.next s).kind == .punct .semicolon) s := rfl
  have hends : canInsertSemicolon c s = .ok ((c.next s).kind == .eof ||
    (c.next s).kind == .punct .rbrace || (c.next s).newlineBefore) s := rfl
  rw [bind_apply, hcheck]
  show (canInsertSemicolon >>= _) c s = _
  rw [bind_apply, hends]
  rcases hk with hk | hk <;> simp [hk]

theorem returnStatement (hg : q.Grammars g g') : q.Ends S g.returnStatement g'.returnStatement := by
  refine .take (V := fun _ => False) (.expectKeyword _) fun z => .context fun _ =>
    .ite (fun _ => .reject _ _) fun _ => ?_
  intro c s n t hc _ h
  by_cases hs : s.pending = []
  · have hnext : (c.next s).kind.EndsStatement := Or.inl (by simp [Context.next, hs, hc])
    have hnext' : ((q.context c).next (q.state s)).kind.EndsStatement := by
      rw [next_nil hs]
      exact q.head_ends
    rw [returns_nothing hnext] at h
    rw [returns_nothing hnext']
    exact Runs.map (.semicolon (S := .anywhere)) hc trivial h
  · have hlength := List.length_pos_iff.2 hs
    refine .look (.check_inner _) hc hlength h fun _ _ h => .look .canInsertSemicolon hc hlength h
      fun _ _ h => .ite h (fun _ h => ?_) fun _ h => ?_
    · exact Runs.map (.semicolon (S := .anywhere)) hc trivial h
    · exact Runs.take (S := .anywhere) (expression hg) (fun _ => .map .semicolon) hc trivial h

/-- Behind a semicolon that was taken, there is no `else`. -/
theorem ifStatement (hg : q.Grammars g g') : q.Ends S g.ifStatement g'.ifStatement := by
  refine .take (V := fun _ => False) (.expectKeyword _) fun z => .bind (parenthesized hg)
    fun condition => ?_
  intro c s n t hc _ h
  obtain ⟨consequent, u, hu, hrest⟩ := bind_eq_ok.1 h
  have hconsequent := hg.statement hc trivial hu
  have halternate := Runs.acceptKeyword_ite (S := .anywhere) (k := .else_) (.map hg.statement)
    .done hc trivial hrest
  refine ⟨halternate.suffix.trans hconsequent.suffix, False.elim, fun _ => ?_⟩
  obtain ⟨_, hu', hresumes⟩ := hconsequent.resumes (Nat.zero_le _)
  rw [bind_apply, hu']
  cases hresumes with
  | same => exact halternate.resumes (Nat.zero_le _)
  | taken _ hp hk =>
    obtain ⟨b, v, hb, hrest⟩ := bind_eq_ok.1 hrest
    have hnot : (c.next u).kind ≠ .keyword .else_ := by simp [Context.next, hp, hc]
    obtain ⟨hnext, -⟩ | ⟨-, rfl, rfl⟩ := acceptKeyword_eq_ok.1 hb
    · exact absurd hnext hnot
    · obtain ⟨rfl, rfl⟩ := pure_eq_ok.1 hrest
      have hnone : acceptKeyword .else_ (q.context c) (q.state u).skip =
          .ok false (q.state u).skip := by
        refine acceptKeyword_eq_ok.2 (Or.inr ⟨?_, rfl, rfl⟩)
        rw [Context.next, State.skip, state, hp]
        exact q.noElse
      refine ⟨_, ?_, .taken trivial hp hk⟩
      show (acceptKeyword .else_ >>= _) (q.context c) (q.state u).skip = _
      rw [bind_apply, hnone]
      rfl

theorem whileStatement (hg : q.Grammars g g') : q.Ends S g.whileStatement g'.whileStatement :=
  .take (.expectKeyword _) fun _ => .bind (parenthesized hg) fun _ => .map hg.statement

theorem doWhileStatement (hg : q.Grammars g g') :
    q.Ends S g.doWhileStatement g'.doWhileStatement :=
  .take (.expectKeyword _) fun _ => .inner hg.statement.inside fun _ =>
    .take (.expectKeyword _) fun _ => .bind (parenthesized hg) fun _ => .accept_semicolon _

theorem wordStatement (shape : Shape Node) :
    q.Ends .filled (Grammar.wordStatement shape) (Grammar.wordStatement shape) :=
  .take .advance_filled fun _ => .map .semicolon

theorem throwStatement (hg : q.Grammars g g') : q.Ends S g.throwStatement g'.throwStatement :=
  .take (.expectKeyword _) fun _ => .peek fun _ => .ite (fun _ => .reject _ _) fun _ =>
    .take (expression hg) fun _ => .map .semicolon

/-! Loops. -/

theorem forInRest (hg : q.Grammars g g') (z : Token) (left : Node) :
    q.Ends S (g.forInRest z left) (g'.forInRest z left) :=
  .acceptKeyword_ite
    (.bind (expression hg) fun _ => .bind (.expect _) fun _ => .map hg.statement)
    (.inner .advance_inner fun _ => .bind hg.assignment fun _ => .bind (.expect _) fun _ =>
      .map hg.statement)

theorem optionalBefore (hg : q.Grammars g g') (close : Punct) :
    q.Inner S (fun _ => False) (g.optionalBefore close) (g'.optionalBefore close) :=
  .look_at (.check_inner close) (fun _ => Or.inl (Nat.le_refl _)) fun _ => .ite (fun _ => .done)
    fun _ => .bind (expression hg) fun _ => .done

theorem forRest (hg : q.Grammars g g') (z : Token) (init : Option Node) :
    q.Ends S (g.forRest z init) (g'.forRest z init) :=
  .bind (.expect _) fun _ => .inner (optionalBefore hg _) fun _ => .bind (.expect _) fun _ =>
    .inner (optionalBefore hg _) fun _ => .bind (.expect _) fun _ => .map hg.statement

theorem startsForIn (offset : Nat) :
    q.Looks offset (Grammar.startsForIn offset) (Grammar.startsForIn offset) := by
  have hname : ∀ z : Token, z.kind.EndsStatement → z.kind.isName = false := by
    rintro z (hz | hz) <;> rw [hz] <;> rfl
  have hnext : ∀ z : Token, z.kind.EndsStatement →
      (z.kind == .keyword .in_ || z.kind == .name "of") = false := by
    rintro z (hz | hz) <;> simp [hz]
  refine fun c s hc => ⟨_, rfl, fun hoffset => ?_⟩
  show Reply.ok (_ && _) _ = .ok (_ && _) _
  rw [drop_test (P := fun z => z.kind.isName) hname hc hoffset]
  rcases Nat.lt_or_eq_of_le hoffset with hlt | heq
  · rw [drop_test (P := fun z => z.kind == .keyword .in_ || z.kind == .name "of") hnext hc hlt]
  · have hend : ((s.pending.drop offset).headD c.finish).kind.isName = false := by
      rw [heq, List.drop_length]
      exact hname _ (Or.inl hc)
    rw [hend, Bool.false_and, Bool.false_and]

theorem forStatement (hg : q.Grammars g g') : q.Ends S g.forStatement g'.forStatement := by
  refine .take (.expectKeyword _) fun z => .bind (.expect _) fun _ => declarationKind?
    (T := fun _ => True) (fun kind => ?_) ?_
  · exact .look_at (startsForIn 1) (fun _ => Or.inr ⟨trivial, Nat.le_refl _⟩) fun _ => .ite
      (fun _ => .inner .advance_inner fun _ => .bind .ident fun _ => forInRest hg z _)
      fun _ => .inner (varDecl hg kind) fun _ => forRest hg z _
  · exact .look (startsForIn 0) fun _ => .ite (fun _ => .bind .ident fun _ => forInRest hg z _)
      fun _ => .inner (optionalBefore hg _) fun _ => forRest hg z _

/-! Switches and handlers. -/

theorem caseRest (hg : q.Grammars g g') (z : Token) (test : Option Node) :
    q.Inner S (fun _ => False) (g.caseRest z test) (g'.caseRest z test) :=
  .bind (.expect _) fun _ => .also (statementsUntil hg _) fun _ => .done

theorem switchCases (hg : q.Grammars g g') :
    q.Inner .anywhere (fun _ => False) g.switchCases g'.switchCases := by
  refine collectFrom (U := fun _ => False) hg.turns (fun hasDefault => .peek_inner fun z => ?_) _
  split
  · exact .done
  · exact .done
  · next hz =>
    exact .advance (by simp [hz]) fun _ => .bind (expression hg) fun _ =>
      .also (caseRest hg z _) fun _ => .done
  · next hz =>
    exact .advance (by simp [hz]) fun _ => .ite (fun _ => .reject _ _) fun _ =>
      .also (caseRest hg z _) fun _ => .done
  · exact .unexpected _

theorem switchStatement (hg : q.Grammars g g') : q.Takes S g.switchStatement g'.switchStatement :=
  .take (.expectKeyword _) fun _ => .bind (parenthesized hg) fun _ => .bind (.expect _) fun _ =>
    .inner (switchCases hg) fun _ => .map (.expect _)

theorem catchParam? : q.Steady S Grammar.catchParam? Grammar.catchParam? :=
  .accept_ite nofun (.bind .ident fun _ => .bind (.expect _) fun _ => .done) .done

theorem handler? (hg : q.Grammars g g') : q.Steady S g.handler? g'.handler? :=
  .acceptKeyword_ite (.bind catchParam? fun _ => .bind (block hg) fun _ => .done) .done

theorem finalizer? (hg : q.Grammars g g') : q.Steady S g.finalizer? g'.finalizer? :=
  .acceptKeyword_ite (.map (block hg)) .done

theorem tryStatement (hg : q.Grammars g g') : q.Takes S g.tryStatement g'.tryStatement :=
  .take (.expectKeyword _) fun _ => .bind (block hg) fun _ => .bind (handler? hg) fun _ =>
    .bind (finalizer? hg) fun _ => .ite (fun _ => .reject _ _) fun _ => .done

/-! All statements. -/

theorem expressionStatement (hg : q.Grammars g g') :
    q.Ends S g.expressionStatement g'.expressionStatement :=
  .peek fun _ => .take (expressionRule hg) fun _ => .map .semicolon

theorem otherStatement (hg : q.Grammars g g') : q.Ends S g.otherStatement g'.otherStatement :=
  asyncChoice hg .declaration (expressionStatement hg)

theorem simpleStatement (hg : q.Grammars g g') : q.Ends S g.simpleStatement g'.simpleStatement := by
  refine .peek fun z => ?_
  have hword : ∀ {k : Keyword} (shape : Shape Node), z.kind = .keyword k →
      q.Ends (.before z) (Grammar.wordStatement shape) (Grammar.wordStatement shape) :=
    fun shape hz => (wordStatement shape).site fun _ _ => Site.filled_of_before (by simp [hz])
  split
  · exact (block hg).ends
  · next hz => exact .advance (by simp [hz]) fun _ => .done
  · exact (function hg _ _).ends
  · exact (class_ hg _).ends
  · exact returnStatement hg
  · exact ifStatement hg
  · exact whileStatement hg
  · exact doWhileStatement hg
  · exact forStatement hg
  · exact (switchStatement hg).ends
  · next hz => exact hword _ hz
  · next hz => exact hword _ hz
  · exact (tryStatement hg).ends
  · exact throwStatement hg
  · next hz => exact hword _ hz
  · exact .reject _ _
  · exact .reject _ _
  · exact .reject _ _
  · exact otherStatement hg

theorem statementRule (hg : q.Grammars g g') : q.Ends S g.statementRule g'.statementRule :=
  declarationKind? (varStatement hg) (simpleStatement hg)

/-! Levels. -/

theorem Grammars.withTurns (hg : q.Grammars g g') {k k' : Nat} (h : k ≤ k') :
    q.Grammars { g with turns := k } { g' with turns := k' } :=
  ⟨h, ⟨hg.nests.statement, hg.nests.assignment, hg.nests.unary, hg.nests.subscripted,
    hg.nests.atom⟩, hg.statement, hg.assignment, hg.unary, hg.subscripted, hg.atom⟩

theorem Grammars.next (hg : q.Grammars g g') : q.Grammars g.next g'.next := by
  have hmore := hg.withTurns (Nat.succ_le_succ hg.turns)
  exact ⟨Nat.succ_le_succ hg.turns, hg.nests.next, statementRule hmore, assignmentRule hmore,
    unaryRule hmore, subscriptedRule hmore, atomRule hmore⟩

theorem exhausted : q.Grammars .exhausted g := by
  have hfail (e : Prop) (p : Parser Node) :
      q.Runs .anywhere (fun _ => 0) (fun _ => True) e (fail .exhausted) p :=
    .fails fun _ _ _ _ h => fail_eq_ok.1 h
  exact ⟨Nat.zero_le _, Grammar.exhausted_nests, hfail _ _, hfail _ _, hfail _ _, hfail _ _,
    hfail _ _⟩

/-- A deeper level does with the sequel what a level does without it. -/
theorem Grammars.level {n m : Nat} (h : n ≤ m) : q.Grammars (.level n) (.level m) := by
  induction n generalizing m with
  | zero => exact exhausted
  | succ n ih =>
    obtain ⟨m, rfl⟩ := Nat.exists_eq_add_of_lt h
    exact (ih (Nat.le_add_right n m)).next

/-- The sequel of a run that nothing stands behind. -/
def alone (finish : Token) (earlier : List Diagnostic) (h : finish.kind = .eof) : Sequel where
  tail := []
  finish := finish
  earlier := earlier
  ends := Or.inl h
  noElse := by simp [h]

/-- A rule that continues with every sequel takes a token, if it does so with any. -/
theorem Runs.advances {p : Parser α} {l : α → Nat} {e : Prop} {a : α} (hc : c.finish.kind = .eof)
    (hp : (alone c.finish [] hc).Runs .anywhere l (fun _ => True) e p p)
    (h : p c s = .ok a t) : t.pending <:+ s.pending ∧ t.pending.length < s.pending.length :=
  ⟨(hp hc trivial h).suffix, (hp hc trivial h).takes trivial⟩

end JsClass.Sequel
