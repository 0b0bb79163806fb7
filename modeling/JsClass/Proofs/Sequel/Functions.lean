import JsClass.Proofs.Nesting.Functions
import JsClass.Proofs.Sequel.Basic

/-! The rules for functions and for the properties of objects. -/
namespace JsClass.Sequel

open JsClass.Parser

variable {q : Sequel} {g g' : Grammar} {c : Context} {s t u : State} {S : Site}

/-- The rules of `g'` do with the sequel what those of `g` do without it. -/
structure Grammars (q : Sequel) (g g' : Grammar) : Prop where
  turns : g.turns ≤ g'.turns
  nests : g.Nests
  statement : q.Ends .anywhere g.statement g'.statement
  assignment : q.Takes .anywhere g.assignment g'.assignment
  unary : q.Takes .anywhere g.unary g'.unary
  subscripted : q.Takes .anywhere g.subscripted g'.subscripted
  atom : q.Takes .anywhere g.atom g'.atom

theorem commaExpression {turns turns' : Nat} {assignment assignment' : Parser Node}
    (hturns : turns ≤ turns') (ha : q.Takes .anywhere assignment assignment') :
    q.Takes S (Grammar.commaExpression turns assignment)
      (Grammar.commaExpression turns' assignment') :=
  .take ha.anyplace fun _ => .look (.check nofun) fun _ => .ite
    (fun _ => .bind (collect hturns (.accept_ite nofun (.bind ha fun _ => .done) .done)) fun _ =>
      .done)
    fun _ => .done

theorem expression (hg : q.Grammars g g') : q.Takes S g.expression g'.expression :=
  commaExpression hg.turns hg.assignment

theorem parenthesized (hg : q.Grammars g g') : q.Takes S g.parenthesized g'.parenthesized :=
  .take (.expect _) fun _ => .bind (expression hg) fun _ => .bind (.expect _) fun _ => .done

theorem statementsUntil (hg : q.Grammars g g') (ends : Kind → Bool) :
    q.Inner .anywhere (fun _ => False) (g.statementsUntil ends) (g'.statementsUntil ends) :=
  collect hg.turns (.peek_inner fun _ => .ite (fun _ => .done) fun _ =>
    .also hg.statement.inside.anyplace fun _ => .done)

theorem block (hg : q.Grammars g g') : q.Takes S g.block g'.block :=
  .take (.expect _) fun _ => .inner (statementsUntil hg _) fun _ => .map (.expect _)

/-! Functions. -/

theorem closeRest : q.Takes S Grammar.closeRest Grammar.closeRest :=
  .peek fun _ => .ite (fun hz => .advance (by simp [beq_iff_eq.1 hz]) fun _ => .done) fun _ =>
    .reject _ _

theorem initializer? (hg : q.Grammars g g') : q.Steady S g.initializer? g'.initializer? :=
  .accept_ite nofun (.map hg.assignment) .done

theorem params (hg : q.Grammars g g') : q.Takes S g.params g'.params := by
  refine .take (.expect _) fun _ => collect_closed hg.turns (.accept_ite nofun .done
    (.peek fun _ => .accept_ite (V := fun _ => False) nofun ?_ ?_))
  · exact .bind .ident fun _ => .bind closeRest fun _ => .done
  · exact .take .ident fun _ => .bind (initializer? hg) fun _ => .look (.check nofun) fun _ =>
      .ite (fun _ => .done) fun _ => .bind (.expect _) fun _ => .done

theorem functionRest (hg : q.Grammars g g') (isAsync isGenerator : Bool) :
    q.Takes S (g.functionRest isAsync isGenerator) (g'.functionRest isAsync isGenerator) :=
  .within (fun _ => rfl) (fun _ => rfl) (.take (params hg) fun _ => .bind (block hg) fun _ => .done)

theorem functionName? (form : FunctionForm) :
    q.Inner S (fun _ => False) (Grammar.functionName? form) (Grammar.functionName? form) :=
  .peek_inner fun _ => .ite (fun _ => .bind .ident fun _ => .done) fun _ =>
    .ite (fun _ => .reject _ _) fun _ => .done

theorem function (hg : q.Grammars g g') (form : FunctionForm) (isAsync : Bool) :
    q.Takes S (g.function form isAsync) (g'.function form isAsync) :=
  .take (.expectKeyword _) fun _ => .bind (.accept nofun) fun _ => .context fun _ =>
    .ite (fun _ => .reject _ _) fun _ => .inner (functionName? form) fun _ =>
      .map (functionRest hg _ _)

theorem method (hg : q.Grammars g g') (isAsync isGenerator : Bool) :
    q.Takes S (g.method isAsync isGenerator) (g'.method isAsync isGenerator) :=
  .peek fun _ => .take (functionRest hg _ _) fun _ => .done

theorem arrow (hg : q.Grammars g g') (params : List Node) (start : Token) :
    q.Takes S (g.arrow params start) (g'.arrow params start) :=
  .take (.expect _) fun _ => .within (fun _ => rfl) (fun _ => rfl) (.look (.check nofun) fun _ =>
    .ite (fun _ => .bind (block hg) fun _ => .done) fun _ => .bind hg.assignment fun _ => .done)

/-! Keys and properties. -/

theorem numberLiteral (z : Token) (raw : String) :
    q.Steady S (Grammar.numberLiteral z raw) (Grammar.numberLiteral z raw) := by
  unfold Grammar.numberLiteral
  split
  · exact .done
  · exact .fails fun _ _ _ _ h => fail_eq_ok.1 h

theorem checkAccessor (accessor : Option Accessor) (function : Node) :
    q.Steady S (Grammar.checkAccessor accessor function)
      (Grammar.checkAccessor accessor function) := by
  unfold Grammar.checkAccessor
  rcases accessor with _ | _ | _
  · exact .done
  · cases function.params with
    | nil => exact .done
    | cons => exact .report _ _
  · cases function.params with
    | nil => exact .ite (fun _ => .bind (.report _ _) fun _ => .done) fun _ => .done
    | cons =>
      exact .ite (fun _ => .bind (.report _ _) fun _ => .ite (fun _ => .report _ _) fun _ => .done)
        fun _ => .ite (fun _ => .report _ _) fun _ => .done

theorem propertyKey (hg : q.Grammars g g') : q.Takes S g.propertyKey g'.propertyKey := by
  refine .peek fun z => ?_
  split
  · next hz =>
    exact .advance (by simp [hz]) fun _ => .bind hg.assignment fun _ => .bind (.expect _) fun _ =>
      .done
  · next hz => exact .advance (by simp [hz]) fun _ => .map (numberLiteral _ _)
  · next hz => exact .advance (by simp [hz]) fun _ => .done
  · exact .take .propertyWord fun _ => .done

theorem asyncStar : q.Steady S Grammar.asyncStar Grammar.asyncStar :=
  .context fun _ => .ite (fun _ => .accept_steady nofun) fun _ => .done

/-- The words before a key are told from keys by the token behind them. -/
theorem propertyAccessor? : q.Runs S (fun _ => 2) (fun _ => False) False
    Grammar.propertyAccessor? Grammar.propertyAccessor? :=
  .look_at (.peekAt 1) (fun _ => Or.inl (Nat.le_refl _)) fun _ => .ite (fun _ => .done) fun _ =>
    .acceptKind_ite (by simp [Kind.EndsStatement]) .done
      (.acceptKind_ite (by simp [Kind.EndsStatement]) .done .done)

theorem propertyModifiers : q.Runs S (fun _ => 2) (fun _ => False) False
    Grammar.propertyModifiers Grammar.propertyModifiers := by
  refine .context fun _ => .peek_inner fun z => .look_at (.peekAt 1)
    (fun _ => Or.inl (Nat.le_refl _)) fun _ => .ite (fun hb => ?_) fun _ => ?_
  · have hz : z.kind = .name "async" := by
      simp only [Bool.and_eq_true, beq_iff_eq] at hb
      exact hb.1.1.2
    exact .advance (by simp [hz]) fun _ => .bind asyncStar fun _ => .done
  · exact .accept_ite nofun .done (.also propertyAccessor? fun _ => .done)

theorem methodProperty (hg : q.Grammars g g') (start : Token) (k : Grammar.PropertyKey)
    (ms : Grammar.Modifiers) :
    q.Takes S (g.methodProperty start k ms) (g'.methodProperty start k ms) :=
  .take (method hg _ _) fun _ => .bind (checkAccessor _ _) fun _ => .done

/-- A name that is key and value is read again from where the key was, in both runs. -/
theorem plainProperty (hg : q.Grammars g g') {start keyToken : Token} {k : Grammar.PropertyKey}
    {n : Node} (hc : c.finish.kind = .eof) (hu : u.pending <:+ s.pending)
    (hlt : u.pending.length < s.pending.length)
    (h : g.plainProperty start keyToken s.pending k c u = .ok n t) :
    q.Continues (fun _ => 0) (fun _ => True) False s n t
      (g'.plainProperty start keyToken (s.pending ++ q.tail) k (q.context c) (q.state u)) := by
  refine .bind (.accept nofun) hc (S := .anywhere) trivial h fun b v _ hv _ hrest => .ite hrest
    (fun _ hvalue => ?_) fun _ hrest => .ite hrest (fun _ hagain => ?_) fun _ hrest =>
      (unexpectedNext_eq_ok.1 hrest).elim
  · exact (Runs.map hg.assignment hc trivial hvalue).behind (hv.trans hu)
      (Nat.lt_of_le_of_lt hv.length_le hlt)
  · obtain ⟨_, w, hw, hvalue⟩ := bind_eq_ok.1 hagain
    obtain rfl := restore_eq_ok.1 hw
    have hname := Runs.map (q := q) (.ident (S := .anywhere)) hc trivial hvalue
    exact ⟨hname.suffix, hname.takes, hname.resumes⟩

theorem propertyRest (hg : q.Grammars g g') (start : Token) (ms : Grammar.Modifiers) :
    q.Takes S (g.propertyRest start ms) (g'.propertyRest start ms) := by
  refine .peek fun keyToken => .pending fun before => ?_
  rintro c s n t hc rfl h
  refine .bind (propertyKey hg (S := .anywhere)) hc trivial h fun k u _ hu hlt hrest =>
    .look (.check nofun) hc (Nat.zero_le _) hrest fun _ _ hrest => .ite hrest
      (fun _ hmethod => ?_) fun _ hplain => ?_
  · exact (methodProperty hg _ _ _ (S := .anywhere) hc trivial hmethod).behind hu (hlt trivial)
  · exact plainProperty hg hc hu (hlt trivial) hplain

theorem property (hg : q.Grammars g g') : q.Inner S (fun _ => True) g.property g'.property := by
  rw [Grammar.property_eq, Grammar.property_eq]
  exact .peek fun _ => .accept_ite nofun (.bind hg.assignment fun _ => .done)
    (.seq propertyModifiers (fun _ => (propertyRest hg _ _).inside)
      (fun _ _ => Or.inr ⟨trivial, Nat.le_refl _⟩) fun _ _ _ => Or.inr trivial)

theorem object (hg : q.Grammars g g') : q.Takes S g.object g'.object :=
  .take (.expect _) fun _ => .map (separated nofun hg.turns (property hg))

end JsClass.Sequel
