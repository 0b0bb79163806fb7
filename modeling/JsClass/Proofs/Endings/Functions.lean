import JsClass.Proofs.Endings.Basic
import JsClass.Proofs.Nesting.Functions

/-! The rules for functions and for the properties of objects. -/
namespace JsClass.Endings

open JsClass.Parser

variable {q : Endings} {g : Grammar} {c : Context} {s t u : State} {S : Site}

/-- The rules of `g` do the same with either ending. -/
structure Keeps (q : Endings) (g : Grammar) : Prop where
  nests : g.Nests
  statement : q.Ends .anywhere (fun _ => True) g.statement
  assignment : q.Takes .anywhere g.assignment
  unary : q.Takes .anywhere g.unary
  subscripted : q.Takes .anywhere g.subscripted
  atom : q.Takes .anywhere g.atom

theorem commaExpression {turns : Nat} {assignment : Parser Node}
    (ha : q.Takes .anywhere assignment) : q.Takes S (Grammar.commaExpression turns assignment) :=
  .take ha.anyplace fun _ => .look (.check (by decide)) fun _ => .ite
    (fun _ => .bind (collect (.accept_ite (by decide) (.bind ha fun _ => .done) .done)) fun _ =>
      .done)
    fun _ => .done

theorem expression (hg : q.Keeps g) : q.Takes S g.expression := commaExpression hg.assignment

theorem parenthesized (hg : q.Keeps g) : q.Takes S g.parenthesized :=
  .take (.expect nofun) fun _ => .bind (expression hg) fun _ => .bind (.expect nofun) fun _ => .done

theorem statementsUntil (hg : q.Keeps g) (ends : Kind → Bool) :
    q.Ends .anywhere (fun _ => False) (g.statementsUntil ends) :=
  collect (.peek_inner fun _ => .ite (fun _ => .done) fun _ =>
    .also hg.statement.anyplace fun _ => .done)

theorem block (hg : q.Keeps g) : q.Takes S g.block :=
  .take (.expect nofun) fun _ => .inner (statementsUntil hg _) fun _ => .map (.expect nofun)

/-! Functions. -/

theorem closeRest : q.Takes S Grammar.closeRest := by
  refine .peek fun z => .ite (fun hz => ?_) fun _ => .reject _ _
  have hz : z.kind = .punct .rparen := beq_iff_eq.1 hz
  exact .advance (by simp [hz]) (by simp [hz]) fun _ => .done

theorem initializer? (hg : q.Keeps g) : q.Steady S g.initializer? :=
  .accept_ite (by decide) (.map hg.assignment) .done

/-- Whether a parameter is the last one shows the token behind it. -/
theorem paramRest (param : Node) :
    q.Runs S left (fun r => ¬ r.GoesOn) Turn.GoesOn (do
      if ← check .rparen then return .more [param] ()
      else
        let _ ← expect .comma
        return .more [param] () : Parser (Turn Unit Node)) := by
  have hturn : q.Inner S (fun _ => False) (do
      if ← check .rparen then return .more [param] ()
      else
        let _ ← expect .comma
        return .more [param] () : Parser (Turn Unit Node)) :=
    .look_at (.check_inner _) (fun _ => Or.inl (Nat.le_refl _)) fun _ => .ite (fun _ => .done)
      fun _ => .bind (.expect nofun) fun _ => .done
  refine (hturn.goesOn fun h => ?_).mono fun _ => Or.inr
  simp only [bind_eq_ok, ite_eq_ok, pure_eq_ok] at h
  obtain ⟨_, _, -, ⟨-, rfl, -⟩ | ⟨-, _, _, -, rfl, -⟩⟩ := h <;> trivial

theorem params (hg : q.Keeps g) : q.Takes S g.params := by
  refine .take (.expect nofun) fun _ => collect_closed (.accept_closer nofun
    (fun _ => Or.inl trivial) .done (.peek fun _ => .accept_ite (V := fun _ => False) (by decide)
      ?_ ?_))
  · exact .bind .ident fun _ => .bind closeRest fun _ => .done
  · exact .take .ident fun _ => .bind (initializer? hg) fun _ => paramRest _

theorem functionRest (hg : q.Keeps g) (isAsync isGenerator : Bool) :
    q.Takes S (g.functionRest isAsync isGenerator) :=
  .within (fun _ => rfl) (fun _ => rfl) (.take (params hg) fun _ => .bind (block hg) fun _ => .done)

theorem functionName? (form : FunctionForm) :
    q.Inner S (fun _ => False) (Grammar.functionName? form) :=
  .peek_inner fun _ => .ite (fun _ => .bind .ident fun _ => .done) fun _ =>
    .ite (fun _ => .reject _ _) fun _ => .done

theorem function (hg : q.Keeps g) (form : FunctionForm) (isAsync : Bool) :
    q.Takes S (g.function form isAsync) :=
  .take (.expectKeyword _) fun _ => .bind (.accept (by decide)) fun _ => .context (fun _ => rfl)
    fun _ => .ite (fun _ => .reject _ _) fun _ => .inner (functionName? form) fun _ =>
      .map (functionRest hg _ _)

theorem method (hg : q.Keeps g) (isAsync isGenerator : Bool) :
    q.Takes S (g.method isAsync isGenerator) :=
  .peek fun _ => .take (functionRest hg _ _) fun _ => .done

theorem arrow (hg : q.Keeps g) (params : List Node) (start : Token) :
    q.Takes S (g.arrow params start) :=
  .take (.expect nofun) fun _ => .within (fun _ => rfl) (fun _ => rfl) (.look (.check (by decide))
    fun _ => .ite (fun _ => .bind (block hg) fun _ => .done) fun _ => .bind hg.assignment fun _ =>
      .done)

/-! Keys and properties. -/

theorem numberLiteral (z : Token) (raw : String) : q.Steady S (Grammar.numberLiteral z raw) := by
  unfold Grammar.numberLiteral
  split
  · exact .done
  · exact .fails fun _ _ _ _ h => fail_eq_ok.1 h

theorem checkAccessor (accessor : Option Accessor) (function : Node) :
    q.Steady S (Grammar.checkAccessor accessor function) := by
  unfold Grammar.checkAccessor
  rcases accessor with _ | _ | _
  · exact .done
  · cases function.params with
    | nil => exact .done
    | cons => exact .report _ _
  · cases function.params with
    | nil => exact .ite (fun _ => .bind (.report _ _) fun _ => .done) fun _ => .done
    | cons =>
      exact .ite (fun _ => .bind (.report _ _) fun _ => .ite (fun _ => .report _ _) fun _ => .done)
        fun _ => .ite (fun _ => .report _ _) fun _ => .done

theorem propertyKey (hg : q.Keeps g) : q.Takes S g.propertyKey := by
  refine .peek fun z => ?_
  split
  · next hz =>
    exact .advance (by simp [hz]) (by simp [hz]) fun _ => .bind hg.assignment fun _ =>
      .bind (.expect nofun) fun _ => .done
  · next hz => exact .advance (by simp [hz]) (by simp [hz]) fun _ => .map (numberLiteral _ _)
  · next hz => exact .advance (by simp [hz]) (by simp [hz]) fun _ => .done
  · exact .take .propertyWord fun _ => .done

theorem asyncStar : q.Steady S Grammar.asyncStar :=
  .context (fun _ => rfl) fun _ => .ite (fun _ => .accept_steady (by decide)) fun _ => .done

/-- The words before a key are told from keys by the token behind them. -/
theorem propertyAccessor? : q.Runs S (fun _ => 2) (fun _ => False) (fun _ => False)
    Grammar.propertyAccessor? :=
  .look_at (.peekAt 1) (fun _ => Or.inl (Nat.le_refl _)) fun _ => .ite (fun _ => .done) fun _ =>
    .acceptKind_ite (by decide) .done (.acceptKind_ite (by decide) .done .done)

theorem propertyModifiers : q.Runs S (fun _ => 2) (fun _ => False) (fun _ => False)
    Grammar.propertyModifiers := by
  refine .context (fun _ => rfl) fun _ => .peek_inner fun z => .look_at (.peekAt 1)
    (fun _ => Or.inl (Nat.le_refl _)) fun _ => .ite (fun hb => ?_) fun _ => ?_
  · have hz : z.kind = .name "async" := by
      simp only [Bool.and_eq_true, beq_iff_eq] at hb
      exact hb.1.1.2
    exact .advance (by simp [hz]) (by simp [hz]) fun _ => .bind asyncStar fun _ => .done
  · exact .accept_ite (by decide) .done (.also propertyAccessor? fun _ => .done)

theorem methodProperty (hg : q.Keeps g) (start : Token) (k : Grammar.PropertyKey)
    (ms : Grammar.Modifiers) : q.Takes S (g.methodProperty start k ms) :=
  .take (method hg _ _) fun _ => .bind (checkAccessor _ _) fun _ => .done

/-- A name that is key and value is read again from where the key was, in both runs. -/
theorem plainProperty (hg : q.Keeps g) {start keyToken : Token} {k : Grammar.PropertyKey}
    {n : Node} (hc : c.finish.kind = .eof) (hu : u.pending <:+ s.pending)
    (hskips : keyToken.kind.isName → u.pending = s.skip.pending)
    (h : g.plainProperty start keyToken s.pending k c u = .ok n t) :
    t.pending <:+ u.pending ∧ q.Continues (fun _ => 0) (fun _ => True) (fun _ => False) s n t
      (g.plainProperty start keyToken (q.state s).pending k (q.context c) (q.state u)) := by
  obtain ⟨b, v, hb, hrest⟩ := bind_eq_ok.1 h
  have hcolon := Runs.accept (q := q) (k := .colon) (by decide) hc (S := .anywhere) trivial hb
  have hsuffix : t.pending <:+ v.pending := by
    rcases ite_eq_ok.1 hrest with ⟨-, hvalue⟩ | ⟨hnot, hrest⟩
    · exact (Runs.map hg.assignment hc trivial hvalue).suffix
    · rcases ite_eq_ok.1 hrest with ⟨hname, hagain⟩ | ⟨-, hfails⟩
      · obtain ⟨_, w, hw, hvalue⟩ := bind_eq_ok.1 hagain
        obtain rfl := restore_eq_ok.1 hw
        obtain ⟨i, w, hi, hn⟩ := bind_eq_ok.1 hvalue
        obtain ⟨-, rfl⟩ := pure_eq_ok.1 hn
        have hread := Grammar.ident_skips hi
        obtain ⟨-, rfl, -⟩ | ⟨-, -, rfl⟩ := accept_eq_ok.1 hb
        · exact absurd rfl hnot
        · rw [hread, hskips (Bool.and_eq_true_iff.1 hname).2]
          exact List.suffix_rfl
      · exact (unexpectedNext_eq_ok.1 hfails).elim
  refine ⟨hsuffix.trans hcolon.suffix, .bind (.accept (by decide)) hc (S := .anywhere) trivial h
    fun b' v' hb' hv _ hrest => ?_⟩
  cases hb.symm.trans hb'
  refine ⟨fun hleft => hleft.since hsuffix, .ite hrest (fun _ hvalue => ?_) fun _ hrest =>
    .ite hrest (fun _ hagain => ?_) fun _ hrest => (unexpectedNext_eq_ok.1 hrest).elim⟩
  · have hrun := Runs.map hg.assignment hc trivial hvalue
    exact hrun.behind (hv.trans hu) (hrun.takes trivial)
  · obtain ⟨_, w, hw, hvalue⟩ := bind_eq_ok.1 hagain
    obtain rfl := restore_eq_ok.1 hw
    have hname := Runs.map (q := q) (.ident (S := .anywhere)) hc trivial hvalue
    exact ⟨hname.suffix, hname.takes, hname.last, hname.resumes⟩

theorem propertyRest (hg : q.Keeps g) (start : Token) (ms : Grammar.Modifiers) :
    q.Takes S (g.propertyRest start ms) := by
  refine .peek fun keyToken => ?_
  intro c s n t hc hS h
  have hS : c.next s = keyToken := hS
  refine .pending h fun h => .bind (propertyKey hg) hc (S := .anywhere) trivial h
    fun k u hk hu _ hrest => ?_
  obtain ⟨hasParams, hparams, hsame⟩ := Looks.check (q := q) (p := .lparen) (by decide) (s := u) hc
  rw [bind_apply, hparams] at hrest
  have hrun : t.pending <:+ u.pending ∧
      q.Continues (fun _ => 0) (fun _ => True) (fun _ => False) s n t
        ((if (!ms.areAbsent || hasParams) = true then g.methodProperty start k ms
          else g.plainProperty start keyToken (q.state s).pending k)
          (q.context c) (q.state u)) := by
    rcases ite_eq_ok.1 hrest with ⟨hmethod, hrest⟩ | ⟨hplain, hrest⟩
    · have hrun := methodProperty hg start k ms (S := .anywhere) hc trivial hrest
      rw [if_pos hmethod]
      exact ⟨hrun.suffix, hrun.behind hu (hrun.takes trivial)⟩
    · rw [if_neg hplain]
      refine plainProperty hg hc hu (fun hname => ?_) hrest
      exact Grammar.propertyKey_skips (by rwa [hS]) hk
  obtain ⟨hsuffix, hrun⟩ := hrun
  refine ⟨fun hleft => hleft.since hsuffix, hrun.suffix, hrun.takes, hrun.last, fun hleft => ?_⟩
  rw [bind_apply, hsame (hleft.since hsuffix)]
  exact hrun.resumes hleft

theorem property (hg : q.Keeps g) : q.Inner S (fun _ => True) g.property := by
  rw [Grammar.property_eq]
  exact .peek fun _ => .accept_ite (by decide) (.bind hg.assignment fun _ => .done)
    (.seq propertyModifiers (fun _ => (propertyRest hg _ _).inside)
      (fun _ _ => Or.inr ⟨trivial, Nat.le_refl _⟩) fun _ _ _ => Or.inr trivial)

theorem object (hg : q.Keeps g) : q.Takes S g.object :=
  .take (.expect nofun) fun _ => .map (separated nofun (property hg))

end JsClass.Endings
