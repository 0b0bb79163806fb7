import JsClass.Grammar.Program
import JsClass.Proofs.Grammar.Statements
import JsClass.Proofs.Nesting.Expressions

/-! Statements, and the rules tied together. -/
namespace JsClass.Grammar

open JsClass.Parser

variable {g : Grammar} {c : Context} {s t u : State} {S : Site} {st : List Punct}

/-! Declarations of variables. -/

/-- The word of a declaration is no bracket. -/
theorem declarationKind?_nests {f : Option VarKind → Parser β} {post : β → List Punct}
    (hsome : ∀ kind, (f (some kind)).Nests .flat st post)
    (hnone : (f none).Nests .anywhere st post) :
    (declarationKind? >>= f).Nests S st post := by
  unfold declarationKind?
  rw [bind_bind]
  refine .peek fun x => ?_
  have hkind : ∀ kind, x.kind.IsFlat → (f (some kind)).Nests (.before x) st post := by
    refine fun kind hx => (hsome kind).site fun c s hS => ?_
    have hS : c.next s = x := hS
    rwa [Site.flat, hS]
  split
  · next hx => exact hkind .var (by rw [hx]; exact fun _ => rfl)
  · next hx => exact hkind .const (by rw [hx]; exact fun _ => rfl)
  · next hx =>
    rw [bind_bind]
    refine .look (fun _ _ => ⟨_, rfl⟩) fun y => ?_
    rw [ite_bind]
    exact .ite (fun _ => hkind .let (by rw [hx]; exact fun _ => rfl)) fun _ => hnone.anyplace
  · exact hnone.anyplace

theorem declarator_nests (hg : g.Nests) (kind : VarKind) : (g.declarator kind).Closes S st := by
  refine .bind .ident fun name => .ite (fun _ => .step .peek fun _ => .reject _ _) fun _ =>
    .bind (initializer?_nests hg) fun init => ?_
  cases init with
  | some init => exact .done
  | none => exact .ite (fun _ => .step .peek fun _ => .reject _ _) fun _ => .done

theorem varDecl_nests (hg : g.Nests) (kind : VarKind) : (g.varDecl kind).Closes .flat st :=
  .bind .advance_flat fun _ => .bind (collect_nests (.bind (declarator_nests hg kind) fun _ =>
    .accept rfl (.pure rfl) (.pure rfl))) fun _ => .done

theorem varStatement_nests (hg : g.Nests) (kind : VarKind) :
    (g.varStatement kind).Closes .flat st :=
  .bind (varDecl_nests hg kind) fun _ => .bind .semicolon fun _ => .done

/-! Simple statements. -/

theorem returnStatement_nests (hg : g.Nests) : g.returnStatement.Closes S st :=
  .bind (.expectKeyword _) fun _ => .step .context fun _ => .ite (fun _ => .reject _ _) fun _ =>
    .look (fun _ _ => ⟨_, rfl⟩) fun _ => .look (fun _ _ => ⟨_, rfl⟩) fun _ =>
      .ite (fun _ => .bind .semicolon fun _ => .done)
        fun _ => .bind (expression_nests hg) fun _ => .bind .semicolon fun _ => .done

theorem ifStatement_nests (hg : g.Nests) : g.ifStatement.Closes S st :=
  .bind (.expectKeyword _) fun _ => .bind (parenthesized_nests hg) fun _ =>
    .bind (hg.statement _ _) fun _ => .acceptKeyword (.bind (hg.statement _ _) fun _ => .done) .done

theorem whileStatement_nests (hg : g.Nests) : g.whileStatement.Closes S st :=
  .bind (.expectKeyword _) fun _ => .bind (parenthesized_nests hg) fun _ =>
    .bind (hg.statement _ _) fun _ => .done

theorem doWhileStatement_nests (hg : g.Nests) : g.doWhileStatement.Closes S st :=
  .bind (.expectKeyword _) fun _ => .bind (hg.statement _ _) fun _ => .bind (.expectKeyword _)
    fun _ => .bind (parenthesized_nests hg) fun _ => .bind (.optional fun _ => rfl) fun _ => .done

theorem wordStatement_nests (shape : Shape Node) : (wordStatement shape).Closes .flat st :=
  .bind .advance_flat fun _ => .bind .semicolon fun _ => .done

theorem throwStatement_nests (hg : g.Nests) : g.throwStatement.Closes S st :=
  .bind (.expectKeyword _) fun _ => .step .peek fun _ => .ite (fun _ => .reject _ _) fun _ =>
    .bind (expression_nests hg) fun _ => .bind .semicolon fun _ => .done

/-! Loops, from behind the parenthesis of their head on. -/

theorem forInRest_nests (hg : g.Nests) (x : Token) (left : Node) :
    (g.forInRest x left).Nests .flat (.rparen :: st) fun _ => st := by
  intro c s n t hc hflat h
  obtain ⟨b, u, hb, h⟩ := bind_eq_ok.1 h
  obtain ⟨hin, rfl, rfl⟩ | ⟨-, rfl, rfl⟩ := acceptKeyword_eq_ok.1 hb
  · have htaken : s.Nests (.rparen :: st) s.skip (.rparen :: st) := .skip hc (hflat _)
    refine htaken.trans (Nests.bind (S := .anywhere) (expression_nests hg) (fun _ =>
      .bind (.expect rfl) fun _ => .bind (hg.statement _ _) fun _ => .done) hc trivial h)
  · exact Nests.bind .advance_flat (fun _ => .bind (hg.assignment _ _) fun _ =>
      .bind (.expect rfl) fun _ => .bind (hg.statement _ _) fun _ => .done) hc hflat h

theorem optionalBefore_nests (hg : g.Nests) (close : Punct) :
    (g.optionalBefore close).Closes S st :=
  .look (fun _ _ => ⟨_, rfl⟩) fun _ => .ite (fun _ => .done) fun _ =>
    .bind (expression_nests hg) fun _ => .done

theorem forRest_nests (hg : g.Nests) (x : Token) (init : Option Node) :
    (g.forRest x init).Nests S (.rparen :: st) fun _ => st :=
  .bind (.expect rfl) fun _ => .bind (optionalBefore_nests hg _) fun _ => .bind (.expect rfl)
    fun _ => .bind (optionalBefore_nests hg _) fun _ => .bind (.expect rfl) fun _ =>
      .bind (hg.statement _ _) fun _ => .done

/-- The word `in` or `of` is no bracket. -/
theorem startsForIn_flat {offset : Nat} {b : Bool} (h : startsForIn offset c s = .ok b t) :
    s = t ∧ (b = true → ((s.pending.drop (offset + 1)).headD c.finish).kind.IsFlat) := by
  obtain ⟨rfl, hin⟩ := startsForIn_eq_ok h
  refine ⟨rfl, fun hb => ?_⟩
  rcases hin hb with hk | hk
  · rw [hk]
    exact fun _ => rfl
  · rw [hk]
    exact fun _ => rfl

/-- The head of a loop, behind its parenthesis. -/
theorem forHead_nests (hg : g.Nests) (x : Token) :
    (do
      match ← declarationKind? with
      | some kind =>
        if ← startsForIn 1 then
          let keyword ← advance
          let name ← ident
          g.forInRest x (keyword.node (.varDecl kind [⟨.declarator name.node none, name.pos⟩]))
        else g.forRest x (some (← g.varDecl kind))
      | none =>
        if ← startsForIn 0 then g.forInRest x (← ident).node
        else g.forRest x (← g.optionalBefore .semicolon) : Parser Node).Nests S (.rparen :: st)
      fun _ => st := by
  refine declarationKind?_nests (fun kind => ?_) ?_
  · intro c s n t hc hflat h
    obtain ⟨b, u, hb, h⟩ := bind_eq_ok.1 h
    obtain ⟨rfl, hin⟩ := startsForIn_flat hb
    rcases ite_eq_ok.1 h with ⟨hb, h⟩ | ⟨-, h⟩
    · obtain ⟨keyword, v, hv, h⟩ := bind_eq_ok.1 h
      obtain ⟨name, w, hw, h⟩ := bind_eq_ok.1 h
      have hkeyword : s.Nests (.rparen :: st) v (.rparen :: st) := Nests.advance_flat hc hflat hv
      have hname : v.Nests (.rparen :: st) w (.rparen :: st) :=
        Nests.ident (S := .anywhere) hc trivial hw
      refine (hkeyword.trans hname).trans (forInRest_nests hg _ _ hc ?_ h)
      obtain ⟨-, rfl⟩ := advance_eq_ok.1 hv
      rw [Site.flat, Context.next, ident_pending hw]
      simpa [State.skip] using hin hb
    · exact Nests.bind (varDecl_nests hg kind) (fun _ => forRest_nests hg x _) hc hflat h
  · intro c s n t hc _ h
    obtain ⟨b, u, hb, h⟩ := bind_eq_ok.1 h
    obtain ⟨rfl, hin⟩ := startsForIn_flat hb
    rcases ite_eq_ok.1 h with ⟨hb, h⟩ | ⟨-, h⟩
    · obtain ⟨name, w, hw, h⟩ := bind_eq_ok.1 h
      have hname : s.Nests (.rparen :: st) w (.rparen :: st) :=
        Nests.ident (S := .anywhere) hc trivial hw
      refine hname.trans (forInRest_nests hg _ _ hc ?_ h)
      rw [Site.flat, Context.next, ident_pending hw]
      exact hin hb
    · exact Nests.bind (S := .anywhere) (optionalBefore_nests hg _)
        (fun _ => forRest_nests hg x _) hc trivial h

theorem forStatement_nests (hg : g.Nests) : g.forStatement.Closes S st :=
  .bind (.expectKeyword _) fun x => .bind (.expect rfl) fun _ => forHead_nests hg x

/-! Switches and handlers. -/

theorem caseRest_nests (hg : g.Nests) (x : Token) (test : Option Node) :
    (g.caseRest x test).Closes S st :=
  .bind (.expect rfl) fun _ => .bind (statementsUntil_nests hg _) fun _ => .done

theorem switchCases_nests (hg : g.Nests) : g.switchCases.Closes S st := by
  refine collectFrom_nests (fun hasDefault => .peek fun x => ?_) _
  split
  · exact .pure rfl
  · exact .pure rfl
  · next hx =>
    exact .advance (by rw [hx]; rfl) fun _ => .bind (expression_nests hg) fun _ =>
      .bind (caseRest_nests hg x _) fun _ => .pure rfl
  · next hx =>
    exact .advance (by rw [hx]; rfl) fun _ => .ite (fun _ => .reject _ _) fun _ =>
      .bind (caseRest_nests hg x _) fun _ => .pure rfl
  · exact .unexpected _

theorem switchStatement_nests (hg : g.Nests) : g.switchStatement.Closes S st :=
  .bind (.expectKeyword _) fun _ => .bind (parenthesized_nests hg) fun _ => .bind (.expect rfl)
    fun _ => .bind (switchCases_nests hg) fun _ => .bind (.expect rfl) fun _ => .done

theorem catchParam?_nests : catchParam?.Closes S st :=
  .accept rfl (.bind .ident fun _ => .bind (.expect rfl) fun _ => .done) .done

theorem handler?_nests (hg : g.Nests) : g.handler?.Closes S st :=
  .acceptKeyword (.bind catchParam?_nests fun _ => .bind (block_nests hg) fun _ => .done) .done

theorem finalizer?_nests (hg : g.Nests) : g.finalizer?.Closes S st :=
  .acceptKeyword (.bind (block_nests hg) fun _ => .done) .done

theorem tryStatement_nests (hg : g.Nests) : g.tryStatement.Closes S st :=
  .bind (.expectKeyword _) fun _ => .bind (block_nests hg) fun _ => .bind (handler?_nests hg)
    fun _ => .bind (finalizer?_nests hg) fun _ => .ite (fun _ => .reject _ _) fun _ => .done

/-! All statements. -/

theorem expressionStatement_nests (hg : g.Nests) : g.expressionStatement.Closes S st :=
  .step .peek fun _ => .bind (expressionRule_nests hg) fun _ => .bind .semicolon fun _ => .done

theorem otherStatement_nests (hg : g.Nests) : g.otherStatement.Closes S st :=
  asyncChoice_nests hg .declaration (expressionStatement_nests hg)

theorem simpleStatement_nests (hg : g.Nests) : g.simpleStatement.Closes S st := by
  refine .peek fun x => ?_
  have hword : ∀ {k : Keyword} (shape : Shape Node), x.kind = .keyword k →
      (wordStatement shape).Closes (.before x) st := by
    refine fun shape hx => (wordStatement_nests shape).site fun c s hS => ?_
    have hS : c.next s = x := hS
    rw [Site.flat, hS, hx]
    exact fun _ => rfl
  split
  · exact block_nests hg
  · next hx => exact .advance (by rw [hx]; rfl) fun _ => .done
  · exact function_nests hg _ _
  · exact class_nests hg _
  · exact returnStatement_nests hg
  · exact ifStatement_nests hg
  · exact whileStatement_nests hg
  · exact doWhileStatement_nests hg
  · exact forStatement_nests hg
  · exact switchStatement_nests hg
  · next hx => exact hword _ hx
  · next hx => exact hword _ hx
  · exact tryStatement_nests hg
  · exact throwStatement_nests hg
  · next hx => exact hword _ hx
  · exact .reject _ _
  · exact .reject _ _
  · exact .reject _ _
  · exact otherStatement_nests hg

theorem statementRule_nests (hg : g.Nests) : g.statementRule.Closes S st :=
  declarationKind?_nests (varStatement_nests hg) (simpleStatement_nests hg)

/-! Levels. -/

theorem Nests.next (hg : g.Nests) : g.next.Nests := by
  have hmore : { g with turns := g.turns + 1 }.Nests :=
    ⟨hg.statement, hg.assignment, hg.unary, hg.subscripted, hg.atom⟩
  exact ⟨fun _ _ => statementRule_nests hmore, fun _ _ => assignmentRule_nests hmore,
    fun _ _ => unaryRule_nests hmore, fun _ _ => subscriptedRule_nests hmore,
    fun _ _ => atomRule_nests hmore⟩

theorem exhausted_nests : exhausted.Nests := by
  have hfail : (fail .exhausted : Parser Node).Balanced :=
    fun _ _ _ _ _ _ _ _ h => (fail_eq_ok.1 h).elim
  exact ⟨hfail, hfail, hfail, hfail, hfail⟩

end JsClass.Grammar
