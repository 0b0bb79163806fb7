import JsClass.Proofs.Grammar.Classes

/-! The keyword `super` is no expression of its own: it is accessed, called or created. -/
namespace JsClass

namespace Parser

variable {α β : Type} {P : α → Prop} {c : Context} {s t : State} {p q : Parser α} {a : α}

namespace Returns

theorem of_ok (hp : p.Returns P) (h : p c s = .ok a t) : P a := hp c s a t h

theorem pure (h : P a) : Returns P (Pure.pure a) := by
  intro c s b t hb
  obtain ⟨rfl, -⟩ := pure_eq_ok.1 hb
  exact h

theorem fail (e : Fault) : Returns P (Parser.fail e) := by
  intro c s b t hb
  cases hb

theorem reject (cause : Cause) (pos : Position) : Returns P (Parser.reject cause pos) := fail _

theorem bind_of {x : Parser β} {f : β → Parser α} {Q : β → Prop} (hx : x.Returns Q)
    (h : ∀ b, Q b → (f b).Returns P) : (x >>= f).Returns P := by
  intro c s b t hb
  obtain ⟨a, u, ha, hf⟩ := bind_eq_ok.1 hb
  exact (h a (hx.of_ok ha)).of_ok hf

theorem bind {x : Parser β} {f : β → Parser α} (h : ∀ b, (f b).Returns P) :
    (x >>= f).Returns P :=
  bind_of (fun _ _ _ _ _ => trivial) fun b _ => h b

theorem ite {b : Prop} [Decidable b] (hp : p.Returns P) (hq : q.Returns P) :
    Returns P (if b then p else q) := by
  split
  · exact hp
  · exact hq

theorem within {change : Context → Context} (h : p.Returns P) :
    (Parser.within change p).Returns P := by
  intro c s b t hb
  exact h.of_ok (c := change c) hb

theorem inClassBody (h : p.Returns P) : (Parser.inClassBody p).Returns P := by
  intro c s b t hb
  obtain ⟨u, hu, -⟩ := inClassBody_eq_ok.1 hb
  exact h.of_ok hu

/-- What every step keeps holds of the end, if it holds of the start. -/
theorem extend {step : α → Parser (Option α)} {turns : Nat}
    (hstep : ∀ x, P x → (step x).Returns fun r => ∀ y ∈ r, P y) (ha : P a) :
    (Parser.extend step turns a).Returns P := by
  intro c s b t hb
  refine extend_induction (P := fun x _ y _ => P x → P y) ?_ ?_ hb ha
  · intro x s t _ hx
    exact hx
  · intro x s y u z t hy ih hx
    exact ih ((hstep x hx).of_ok hy y rfl)

end Returns

end Parser

namespace Grammar

open JsClass.Parser

variable {g : Grammar} {c : Context} {s t : State} {n base : Node}

/-! Rules that always build a node of another form. -/

theorem function_neverSuper (form : FunctionForm) (isAsync : Bool) :
    (g.function form isAsync).NeverSuper :=
  .bind fun _ => .bind fun _ => .bind fun _ =>
    .ite (.reject _ _) (.bind fun _ => .bind fun _ => .pure rfl)

theorem arrow_neverSuper (params : List Node) (start : Token) : (g.arrow params start).NeverSuper :=
  .bind fun _ => .within (.bind fun _ => .ite (.bind fun _ => .pure rfl) (.bind fun _ => .pure rfl))

theorem classRest_neverSuper (isExpression : Bool) : (g.classRest isExpression).NeverSuper :=
  .bind fun _ => .within (.bind fun _ => .bind fun _ => .bind fun _ => .pure rfl)

theorem class_neverSuper (isExpression : Bool) : (g.class_ isExpression).NeverSuper := by
  refine .bind fun c => ?_
  cases c.dialect with
  | plain => exact classRest_neverSuper isExpression
  | withPrivate => exact .inClassBody (classRest_neverSuper isExpression)

theorem array_neverSuper : g.array.NeverSuper := .bind fun _ => .bind fun _ => .pure rfl

theorem object_neverSuper : g.object.NeverSuper := .bind fun _ => .bind fun _ => .pure rfl

theorem newExpression_neverSuper : g.newExpression.NeverSuper :=
  .bind fun _ => .bind fun _ => .ite (.reject _ _) (.bind fun _ => .bind fun _ => .bind fun _ =>
    .ite (.bind fun _ => .pure rfl) (.pure rfl))

theorem nameExpression_neverSuper : g.nameExpression.NeverSuper :=
  .bind fun _ => .bind fun _ => .ite (.bind fun _ => function_neverSuper _ _)
    (.bind fun _ => .bind fun _ => .ite (arrow_neverSuper _ _) (.pure rfl))

/-- A sequence is no `super`, and neither is its only expression. -/
theorem commaExpression_neverSuper {turns : Nat} {assignment : Parser Node}
    (ha : assignment.NeverSuper) : (commaExpression turns assignment).NeverSuper :=
  .bind_of ha fun _ hfirst => .bind fun _ => .ite (.bind fun _ => .pure rfl) (.pure hfirst)

theorem parenExpression_neverSuper (ha : g.assignment.NeverSuper) :
    g.parenExpression.NeverSuper := by
  refine .bind fun _ => .bind fun _ => .ite (.bind fun _ => arrow_neverSuper _ _) ?_
  exact .bind fun _ => .bind_of (commaExpression_neverSuper ha) fun _ he => .bind fun _ => .pure he

/-! Atoms and what follows them. -/

/-- The keyword is left before an access or a call. -/
theorem superExpression_eq_ok (h : superExpression c s = .ok n t) :
    c.inStaticField = false ∧ c.AfterSuper t ∧
      ∃ x, expectKeyword .super_ c s = .ok x t ∧ n = x.node .super := by
  simp only [superExpression, bind_eq_ok, context_eq_ok, peek_eq_ok] at h
  obtain ⟨x, u, hu, _, _, ⟨rfl, rfl⟩, _, _, ⟨rfl, rfl⟩, h⟩ := h
  cases hk : (c.next u).kind <;> simp only [hk, unexpected_eq_ok] at h
  case punct p =>
    cases p
    case lparen =>
      simp only [ite_eq_ok, reject_eq_ok, pure_eq_ok, and_false, false_or] at h
      obtain ⟨hstatic, hprivate, rfl, rfl⟩ := h
      exact ⟨by simpa using hstatic, Or.inr (Or.inr ⟨hk, by simpa using hprivate⟩), x, hu, rfl⟩
    case dot =>
      simp only [ite_eq_ok, reject_eq_ok, pure_eq_ok, and_false, false_or] at h
      obtain ⟨hstatic, rfl, rfl⟩ := h
      exact ⟨by simpa using hstatic, Or.inl hk, x, hu, rfl⟩
    case lbracket =>
      simp only [ite_eq_ok, reject_eq_ok, pure_eq_ok, and_false, false_or] at h
      obtain ⟨hstatic, rfl, rfl⟩ := h
      exact ⟨by simpa using hstatic, Or.inr (Or.inl hk), x, hu, rfl⟩
    all_goals simp at h

theorem atomRule_super (ha : g.assignment.NeverSuper) (h : g.atomRule c s = .ok n t)
    (hn : n.isSuper) : c.AfterSuper t := by
  -- every other atom contradicts `hn`
  have never : ∀ {p : Parser Node}, p.NeverSuper → p c s = .ok n t → c.AfterSuper t := by
    intro p hp h
    rw [hp.of_ok h] at hn
    cases hn
  simp only [atomRule, bind_eq_ok, peek_eq_ok] at h
  obtain ⟨_, _, ⟨rfl, rfl⟩, h⟩ := h
  cases hk : (c.next s).kind <;> simp only [hk, unexpected_eq_ok] at h
  case name => exact never nameExpression_neverSuper h
  case number raw =>
    simp only [bind_eq_ok, numberLiteral_eq_ok] at h
    obtain ⟨_, _, -, value, -, rfl, -⟩ := h
    cases hn
  case string value => exact never (.bind fun _ => .pure rfl) h
  case punct p =>
    cases p <;> simp only [unexpected_eq_ok] at h
    case lparen => exact never (parenExpression_neverSuper ha) h
    case lbracket => exact never array_neverSuper h
    case lbrace => exact never object_neverSuper h
  case keyword k =>
    cases k <;> simp only [unexpected_eq_ok] at h
    case super_ => exact (superExpression_eq_ok h).2.1
    case function_ => exact never (function_neverSuper _ _) h
    case class_ => exact never (class_neverSuper _) h
    case new_ => exact never newExpression_neverSuper h
    all_goals exact never (.bind fun _ => .pure rfl) h

theorem subscript_some (calls : Bool) (base : Node) :
    (g.subscript calls base).Returns fun r => ∀ n ∈ r, n.isSuper = false := by
  refine .bind fun x => ?_
  split
  · exact .bind fun _ => .bind fun _ => .pure (by simp [Node.isSuper, Node.wrap, Node.shape])
  · exact .bind fun _ => .bind fun _ => .bind fun _ =>
      .pure (by simp [Node.isSuper, Node.wrap, Node.shape])
  · refine .ite (.bind fun _ => .bind fun _ => .pure ?_) (.pure (by simp))
    simp [Node.isSuper, Node.wrap, Node.shape]
  · exact .pure (by simp)

/-- Only a call can be left behind `super`, where the rule takes none. -/
theorem subscript_none {calls : Bool} (hb : c.AfterSuper s)
    (h : g.subscript calls base c s = .ok none t) : calls = false ∧ c.inPrivateMethod = false := by
  simp only [subscript, bind_eq_ok, peek_eq_ok] at h
  obtain ⟨_, _, ⟨rfl, rfl⟩, h⟩ := h
  rcases hb with hk | hk | ⟨hk, hprivate⟩
  · simp [hk] at h
  · simp [hk] at h
  · simp only [hk, ite_eq_ok, bind_eq_ok, pure_eq_ok, reduceCtorEq, false_and, and_false,
      exists_false, false_or] at h
    exact ⟨by simpa using h.1, hprivate⟩

theorem subscripts_super {calls : Bool} (hb : base.isSuper → c.AfterSuper s)
    (h : g.subscripts calls base c s = .ok n t) (hn : n.isSuper) :
    calls = false ∧ c.inPrivateMethod = false := by
  refine extend_induction (P := fun x s y _ => (x.isSuper → c.AfterSuper s) → y.isSuper →
    calls = false ∧ c.inPrivateMethod = false) ?_ ?_ h hb hn
  · intro x s t hx hb hx'
    exact subscript_none (hb hx') hx
  · intro x s y u z t hy ih _ hz
    refine ih (fun hsuper => ?_) hz
    rw [(subscript_some calls x).of_ok hy y rfl] at hsuper
    cases hsuper

/-! Operators leave no `super` by itself. -/

theorem subscriptedRule_neverSuper (ha : g.assignment.NeverSuper) :
    g.subscriptedRule.NeverSuper := by
  intro c s n t h
  simp only [subscriptedRule, bind_eq_ok, ite_eq_ok, pure_eq_ok] at h
  obtain ⟨x, u, hu, ⟨harrow, rfl, rfl⟩ | ⟨-, h⟩⟩ := h
  · cases hx : x.shape <;> simp_all [Node.isArrow, Node.isSuper]
  · cases hn : n.isSuper with
    | false => rfl
    | true =>
      have hcalls := (subscripts_super (atomRule_super ha hu) h hn).1
      cases hcalls

theorem postfixUpdate_some (base : Node) :
    (postfixUpdate base).Returns fun r => ∀ n ∈ r, n.isSuper = false := by
  refine .bind fun x => ?_
  split
  · refine .ite (.pure (by simp)) (.bind fun _ => .bind fun _ => .pure ?_)
    simp [Node.isSuper, Node.wrap, Node.shape]
  · exact .pure (by simp)

theorem unaryOperator_neverSuper (x : Token) (op : UnaryOp) :
    (g.unaryOperator x op).NeverSuper :=
  .bind fun _ => .ite (.bind fun _ => .pure rfl) (.pure rfl)

theorem unaryRule_neverSuper (ha : g.assignment.NeverSuper) : g.unaryRule.NeverSuper := by
  refine .bind fun x => .bind fun _ => .ite (.bind fun _ => .bind fun _ => .pure rfl) ?_
  split
  · exact .bind fun _ => unaryOperator_neverSuper _ _
  · exact .bind fun _ => .bind fun _ => .bind fun _ => .pure rfl
  · exact .bind_of (subscriptedRule_neverSuper ha) fun _ => .extend fun x _ => postfixUpdate_some x

/-- An operator makes another node of its left operand. -/
theorem climb_neverSuper {unary : Parser Node} {turns bound : Nat} {left : Node}
    (hl : left.isSuper = false) : (climb unary turns bound left).NeverSuper := by
  induction turns generalizing bound left with
  | zero => exact .fail _
  | succ turns ih =>
    refine .bind fun x => ?_
    split
    · exact .pure hl
    · exact .ite (.pure hl) (.bind fun _ => .bind fun _ => .bind fun _ => ih rfl)

theorem conditionalRule_neverSuper (ha : g.assignment.NeverSuper) :
    g.conditionalRule.NeverSuper := by
  have hbinary : g.binaryRule.NeverSuper :=
    .bind_of (unaryRule_neverSuper ha) fun _ => climb_neverSuper
  refine .bind_of hbinary fun _ hcondition => .bind fun _ => .ite ?_ (.pure hcondition)
  exact .bind fun _ => .bind fun _ => .bind fun _ => .pure rfl

theorem assignmentRule_neverSuper (ha : g.assignment.NeverSuper) :
    g.assignmentRule.NeverSuper := by
  refine .bind fun _ => .bind fun _ => .ite ?_ ?_
  · exact .bind fun _ => .bind fun _ => .ite (.pure rfl) (.bind fun _ => .bind fun _ => .pure rfl)
  · refine .bind_of (conditionalRule_neverSuper ha) fun _ htarget => .bind fun _ => ?_
    split
    · exact .pure htarget
    · exact .bind fun _ => .bind fun _ => .bind fun _ => .pure rfl

end Grammar

end JsClass
