import JsClass.Proofs.Writing.Members

/-!
What the rules for expressions write. An expression begins where its first operand does, and not
with the parentheses around that operand.
-/
namespace JsClass.Grammar

open JsClass.Parser

variable {g : Grammar} {c : Context} {r s t u : State} {n base : Node} {x : Token}

/-! Arguments, elements and accesses. -/

theorem spreadable_writes (hg : g.Faithful) (h : g.spreadable c s = .ok n t) :
    c.Writes s [n] t := by
  simp only [spreadable, bind_eq_ok, peek_eq_ok, ite_eq_ok, pure_eq_ok] at h
  obtain ⟨_, _, ⟨rfl, rfl⟩, _, u, hu, ⟨rfl, x, v, hx, rfl, rfl⟩ | ⟨-, h⟩⟩ := h
  · exact (accept_takes hu).node (hg.assignment hx) rfl rfl
  · exact (accept_writes hu).trans (hg.assignment h)

theorem arguments_writes (hg : g.Faithful) {ns : List Node} (h : g.arguments c s = .ok ns t) :
    c.Writes s ns t := by
  rw [← List.flatMap_singleton' ns]
  exact separated_writes (spreadable_writes hg) h

theorem array_writes (hg : g.Faithful) (h : g.array c s = .ok n t) : c.Writes s [n] t := by
  simp only [array, bind_eq_ok, pure_eq_ok] at h
  obtain ⟨_, u, hu, elements, v, hv, rfl, rfl⟩ := h
  have helements : c.Writes u (elements.flatMap Option.toList) v := by
    refine separated_writes ?_ hv
    intro s x t hx
    simp only [element, bind_eq_ok, check_eq_ok, ite_eq_ok, pure_eq_ok] at hx
    obtain ⟨_, _, ⟨-, rfl⟩, ⟨-, rfl, rfl⟩ | ⟨-, x, v, hx, rfl, rfl⟩⟩ := hx
    · exact .rfl'
    · exact spreadable_writes hg hx
  have hparts : elements.flatMap Option.toList = elements.filterMap id := by
    rw [List.filterMap_eq_flatMap_toList]
    rfl
  rw [hparts] at helements
  exact (expect_takes hu).node helements.done rfl rfl

theorem dotProperty_writes (h : dotProperty c s = .ok n t) : c.Writes s [n] t := by
  simp only [dotProperty, bind_eq_ok, peek_eq_ok, context_eq_ok, ite_eq_ok, onScope_eq_ok,
    pure_eq_ok] at h
  obtain ⟨_, _, ⟨rfl, rfl⟩, _, _, ⟨rfl, rfl⟩, ⟨-, i, u, hu, _, _, ⟨scope, -, rfl⟩, rfl, rfl⟩ |
    ⟨-, i, u, hu, rfl, rfl⟩⟩ := h
  · exact (privateName_writes hu).trans (.refl rfl rfl)
  · exact propertyWord_writes hu

theorem subscript_writes (hg : g.Faithful) {calls : Bool} {next : Option Node}
    (hb : c.Writes r [base] s) (h : g.subscript calls base c s = .ok next t) :
    c.Writes r [next.getD base] t := by
  simp only [subscript, bind_eq_ok, peek_eq_ok] at h
  obtain ⟨_, _, ⟨rfl, rfl⟩, h⟩ := h
  cases hk : (c.next s).kind
  case punct p =>
    have htaken {x : Token} {u : State} (hu : advance c s = .ok x u) : c.Writes s [] u :=
      advance_writes (by rw [hk]; rfl) hu
    by_cases hdot : p = .dot
    · subst hdot
      simp only [hk, bind_eq_ok, pure_eq_ok] at h
      obtain ⟨_, u, hu, p, v, hv, rfl, rfl⟩ := h
      have hparts := hb.trans ((htaken hu).trans (dotProperty_writes hv))
      exact hparts.wrap rfl rfl rfl
    by_cases hbracket : p = .lbracket
    · subst hbracket
      simp only [hk, bind_eq_ok, pure_eq_ok] at h
      obtain ⟨_, u, hu, p, v, hv, _, w, hw, rfl, rfl⟩ := h
      have hparts := hb.trans ((htaken hu).trans
        ((expression_writes hg hv).trans (expect_writes hw)))
      exact hparts.wrap rfl rfl rfl
    by_cases hparen : p = .lparen
    · subst hparen
      simp only [hk, ite_eq_ok, bind_eq_ok, pure_eq_ok] at h
      obtain ⟨-, _, u, hu, ns, v, hv, rfl, rfl⟩ | ⟨-, rfl, rfl⟩ := h
      · have hparts := hb.trans ((htaken hu).trans (arguments_writes hg hv).done)
        exact hparts.wrap rfl rfl rfl
      · exact hb
    simp [hk, hdot, hbracket, hparen] at h
    obtain ⟨rfl, rfl⟩ := h
    exact hb
  all_goals
    simp only [hk, pure_eq_ok] at h
    obtain ⟨rfl, rfl⟩ := h
    exact hb

/-- What keeps the writing step by step keeps it as long as it is extended. -/
theorem extend_writes {step : Node → Parser (Option Node)}
    (hstep : ∀ {base s next t}, c.Writes r [base] s → step base c s = .ok next t →
      c.Writes r [next.getD base] t)
    {turns : Nat} (hb : c.Writes r [base] s) (h : extend step turns base c s = .ok n t) :
    c.Writes r [n] t := by
  refine extend_induction (P := fun x s y t => c.Writes r [x] s → c.Writes r [y] t) ?_ ?_ h hb
  · intro x s t hx hr
    exact hstep hr hx
  · intro x s y u z t hx ih hr
    exact ih (hstep hr hx)

theorem subscripts_writes (hg : g.Faithful) {calls : Bool} (hb : c.Writes r [base] s)
    (h : g.subscripts calls base c s = .ok n t) : c.Writes r [n] t :=
  extend_writes (subscript_writes hg) hb h

theorem newExpression_writes (hg : g.Faithful) (h : g.newExpression c s = .ok n t) :
    c.Writes s [n] t := by
  simp only [newExpression, bind_eq_ok, peek_eq_ok, ite_eq_ok, reject_eq_ok, and_false, false_or,
    pure_eq_ok] at h
  obtain ⟨_, u, hu, _, _, ⟨rfl, rfl⟩, -, x, v, hv, y, w, hw, _, z, hz,
    ⟨-, ns, a, ha, rfl, rfl⟩ | ⟨-, rfl, rfl⟩⟩ := h
  · have hcallee := subscripts_writes hg (hg.atom hv) hw
    exact (expectKeyword_takes hu).node (hcallee.trans ((accept_writes hz).trans
      (arguments_writes hg ha).done)) rfl rfl
  · have hcallee := subscripts_writes hg (hg.atom hv) hw
    exact (expectKeyword_takes hu).node (hcallee.trans (accept_writes hz)) rfl rfl

/-! Atoms. -/

theorem superExpression_writes (h : superExpression c s = .ok n t) : c.Writes s [n] t := by
  obtain ⟨-, -, x, hx, rfl⟩ := superExpression_eq_ok h
  exact (expectKeyword_takes hx).node .rfl' rfl rfl

/-- An asynchronous function begins with its keyword, and `async` is dropped before it. -/
theorem asyncFunction_writes (hg : g.Faithful) {form : FunctionForm} {b : Bool} {v : State}
    (hb : isAsyncFunction c s = .ok b v) (htrue : b = true) (hu : advance c v = .ok x u)
    (h : g.function form true c u = .ok n t) : c.Writes s [n] t := by
  obtain ⟨rfl, hasync⟩ := isAsyncFunction_eq_ok hb
  have hu : c.Writes s [] u := advance_writes (by rw [(hasync htrue).2]; rfl) hu
  exact hu.trans (function_writes hg h)

theorem nameExpression_writes (hg : g.Faithful) (h : g.nameExpression c s = .ok n t) :
    c.Writes s [n] t := by
  simp only [nameExpression, bind_eq_ok, peek_eq_ok, ite_eq_ok, pure_eq_ok] at h
  obtain ⟨_, _, ⟨rfl, rfl⟩, b, v, hv, ⟨hb, _, u, hu, h⟩ |
    ⟨-, i, u, hu, _, _, ⟨rfl, rfl⟩, h⟩⟩ := h
  · exact asyncFunction_writes hg hv hb hu h
  · obtain ⟨rfl, -⟩ := isAsyncFunction_eq_ok hv
    have hname := ident_writes hu
    obtain ⟨-, h⟩ | ⟨-, rfl, rfl⟩ := h
    · have hparam : c.Writes s [i.param] u := hname.wrap rfl rfl rfl
      exact arrow_writes hg hparam h
    · exact hname

theorem parenExpression_writes (hg : g.Faithful) (h : g.parenExpression c s = .ok n t) :
    c.Writes s [n] t := by
  simp only [parenExpression, isArrowParams, bind_eq_ok, context_eq_ok, peek_eq_ok, pending_eq_ok,
    ite_eq_ok, pure_eq_ok] at h
  obtain ⟨_, _, ⟨rfl, rfl⟩, _, _, ⟨_, _, ⟨rfl, rfl⟩, _, _, ⟨rfl, rfl⟩, -, rfl⟩,
    ⟨-, ps, u, hu, h⟩ | ⟨-, h⟩⟩ := h
  · exact arrow_writes hg (params_writes hg hu) h
  · exact parenthesized_writes hg h

theorem atomRule_writes (hg : g.Faithful) (h : g.atomRule c s = .ok n t) : c.Writes s [n] t := by
  simp only [atomRule, bind_eq_ok, peek_eq_ok] at h
  obtain ⟨_, _, ⟨rfl, rfl⟩, h⟩ := h
  cases hk : (c.next s).kind <;> simp only [hk, unexpected_eq_ok] at h
  case name => exact nameExpression_writes hg h
  case number raw =>
    simp only [bind_eq_ok, advance_eq_ok, numberLiteral_eq_ok] at h
    obtain ⟨_, _, ⟨-, rfl⟩, value, -, rfl, rfl⟩ := h
    exact .leaf (by rw [hk]; rfl) (by rw [hk]; rfl)
  case string value =>
    simp only [bind_eq_ok, advance_eq_ok, pure_eq_ok] at h
    obtain ⟨_, _, ⟨-, rfl⟩, rfl, rfl⟩ := h
    exact .leaf (by rw [hk]; rfl) (by rw [hk]; rfl)
  case punct p =>
    cases p <;> simp only [unexpected_eq_ok] at h
    case lparen => exact parenExpression_writes hg h
    case lbracket => exact array_writes hg h
    case lbrace => exact object_writes hg h
  case keyword k =>
    cases k <;> simp only [unexpected_eq_ok] at h
    case super_ => exact superExpression_writes h
    case function_ => exact function_writes hg h
    case class_ => exact class_writes hg h
    case new_ => exact newExpression_writes hg h
    all_goals
      simp only [bind_eq_ok, advance_eq_ok, pure_eq_ok] at h
      obtain ⟨_, _, ⟨rfl, rfl⟩, rfl, rfl⟩ := h
      have htakes : c.Takes s (c.next s) s.skip := ⟨rfl, rfl, by rw [hk]; rfl⟩
      exact htakes.node .rfl' rfl rfl

theorem subscriptedRule_writes (hg : g.Faithful) (h : g.subscriptedRule c s = .ok n t) :
    c.Writes s [n] t := by
  simp only [subscriptedRule, bind_eq_ok, ite_eq_ok, pure_eq_ok] at h
  obtain ⟨x, u, hu, ⟨-, rfl, rfl⟩ | ⟨-, h⟩⟩ := h
  · exact atomRule_writes hg hu
  · exact subscripts_writes hg (atomRule_writes hg hu) h

/-! Operators. -/

/-- The token of an operator is one of those in its table, and none of them is kept. -/
theorem isDispensable_of_find? {α : Type} {ops : List α} {kind : α → Kind} {k : Kind} {op : α}
    (hops : ∀ op, (kind op).isDispensable = true) (h : ops.find? (kind · == k) = some op) :
    k.isDispensable = true :=
  Kind.of_find? (P := (·.isDispensable = true)) hops h

theorem postfixUpdate_writes {next : Option Node} (hb : c.Writes r [base] s)
    (h : postfixUpdate base c s = .ok next t) : c.Writes r [next.getD base] t := by
  rcases postfixUpdate_cases h with ⟨rfl, rfl⟩ | ⟨op, z, hop, hz, rfl⟩
  · exact hb
  · have hk : (c.next s).kind.isDispensable = true :=
      isDispensable_of_find? (by intro op; cases op <;> rfl) hop
    exact (hb.trans (advance_writes hk hz)).wrap rfl rfl rfl

theorem unaryOperator_writes (hg : g.Faithful) {op : UnaryOp} (hx : c.Takes r x s)
    (h : g.unaryOperator x op c s = .ok n t) : c.Writes r [n] t := by
  simp only [unaryOperator, bind_eq_ok, ite_eq_ok, checkDelete, context_eq_ok, reject_eq_ok,
    pure_eq_ok, and_false, false_or] at h
  obtain ⟨y, u, hu, ⟨-, _, _, ⟨_, _, ⟨rfl, rfl⟩, -, -, -, rfl⟩, rfl, rfl⟩ | ⟨-, rfl, rfl⟩⟩ := h
  · exact hx.node (hg.unary hu) rfl rfl
  · exact hx.node (hg.unary hu) rfl rfl

theorem prefixUpdate_writes (hg : g.Faithful) {op : UpdateOp} (hx : c.Takes r x s)
    (h : g.prefixUpdate x op c s = .ok n t) : c.Writes r [n] t := by
  simp only [prefixUpdate, bind_eq_ok, pure_eq_ok] at h
  obtain ⟨y, u, hu, _, v, hv, rfl, rfl⟩ := h
  obtain rfl := checkTarget_eq_ok hv
  exact hx.node (hg.unary hu) rfl rfl

theorem unaryRule_writes (hg : g.Faithful) (h : g.unaryRule c s = .ok n t) :
    c.Writes s [n] t := by
  simp only [unaryRule, bind_eq_ok, peek_eq_ok, context_eq_ok, ite_eq_ok, pure_eq_ok,
    Bool.and_eq_true, beq_iff_eq] at h
  obtain ⟨_, _, ⟨rfl, rfl⟩, _, _, ⟨rfl, rfl⟩, ⟨⟨-, hk⟩, _, u, hu, y, v, hv, rfl, rfl⟩ |
    ⟨-, h⟩⟩ := h
  · have hx : c.Takes s (c.next s) u := ⟨rfl, (advance_eq_ok.1 hu).2, by rw [hk]; rfl⟩
    exact hx.node (hg.unary hv) rfl rfl
  · cases hop : UnaryOp.ofKind? (c.next s).kind with
    | some op =>
      simp only [hop, bind_eq_ok] at h
      obtain ⟨_, u, hu, h⟩ := h
      have hk : (c.next s).kind.isDispensable = true :=
        isDispensable_of_find? (by intro op; cases op <;> rfl) hop
      exact unaryOperator_writes hg ⟨rfl, (advance_eq_ok.1 hu).2, hk⟩ h
    | none =>
      cases hop' : UpdateOp.ofKind? (c.next s).kind with
      | some op =>
        simp only [hop, hop', bind_eq_ok] at h
        obtain ⟨_, u, hu, h⟩ := h
        have hk : (c.next s).kind.isDispensable = true :=
          isDispensable_of_find? (by intro op; cases op <;> rfl) hop'
        exact prefixUpdate_writes hg ⟨rfl, (advance_eq_ok.1 hu).2, hk⟩ h
      | none =>
        simp only [hop, hop', bind_eq_ok] at h
        obtain ⟨x, u, hu, h⟩ := h
        exact extend_writes postfixUpdate_writes (subscriptedRule_writes hg hu) h

/-- The operators that a left operand is followed by, by induction over their number. -/
theorem climb_writes {unary : Parser Node} (hu : unary.WritesNode) {turns bound : Nat}
    {left : Node} (hl : c.Writes r [left] s) (h : climb unary turns bound left c s = .ok n t) :
    c.Writes r [n] t := by
  induction turns generalizing bound left r s n t with
  | zero => simp [climb] at h
  | succ turns ih =>
    rcases climb_cases h with ⟨rfl, rfl⟩ | ⟨op, z, u, x, v, right, w, hop, hz, hx, hright, hrest⟩
    · exact hl
    · have hk : (c.next s).kind.isDispensable = true :=
        isDispensable_of_find? (by intro op; cases op <;> rfl) hop
      have hparts := hl.trans ((advance_writes hk hz).trans (ih (hu hx) hright))
      have hboth : c.Writes r [left.wrap (.binary left op right)] w := hparts.wrap rfl rfl rfl
      exact ih hboth hrest

theorem binaryRule_writes (hg : g.Faithful) (h : g.binaryRule c s = .ok n t) :
    c.Writes s [n] t := by
  simp only [binaryRule, bind_eq_ok] at h
  obtain ⟨x, u, hu, h⟩ := h
  exact climb_writes (unaryRule_writes hg) (unaryRule_writes hg hu) h

theorem conditionalRule_writes (hg : g.Faithful) (h : g.conditionalRule c s = .ok n t) :
    c.Writes s [n] t := by
  simp only [conditionalRule, bind_eq_ok, ite_eq_ok, pure_eq_ok] at h
  obtain ⟨x, u, hu, _, v, hv, ⟨-, y, w, hw, _, a, ha, z, b, hb, rfl, rfl⟩ | ⟨-, rfl, rfl⟩⟩ := h
  · have hparts := (binaryRule_writes hg hu).trans ((accept_writes hv).trans
      ((hg.assignment hw).trans ((expect_writes ha).trans (hg.assignment hb))))
    exact hparts.wrap rfl rfl rfl
  · exact (binaryRule_writes hg hu).trans (accept_writes hv)

theorem yieldExpression_writes (hg : g.Faithful) (hk : (c.next s).kind.isDispensable = true)
    (h : g.yieldExpression c s = .ok n t) : c.Writes s [n] t := by
  simp only [yieldExpression, bind_eq_ok, peek_eq_ok, ite_eq_ok, pure_eq_ok] at h
  obtain ⟨_, u, hu, _, _, ⟨rfl, rfl⟩, ⟨-, rfl, rfl⟩ | ⟨-, _, v, hv, x, w, hw, rfl, rfl⟩⟩ := h
  · exact (advance_takes hk hu).node .rfl' rfl rfl
  · exact (advance_takes hk hu).node ((accept_writes hv).trans (hg.assignment hw)) rfl rfl

theorem assignmentRule_writes (hg : g.Faithful) (h : g.assignmentRule c s = .ok n t) :
    c.Writes s [n] t := by
  rcases assignmentRule_cases h with ⟨-, hk, h⟩ | h |
    ⟨target, u, op, z, v, value, htarget, hop, hz, hvalue, rfl⟩
  · exact yieldExpression_writes hg (by rw [hk]; rfl) h
  · exact conditionalRule_writes hg h
  · have hk : (c.next u).kind.isDispensable = true :=
      isDispensable_of_find? (by intro op; cases op <;> rfl) hop
    have hparts := (conditionalRule_writes hg htarget).trans
      ((advance_writes hk hz).trans (hg.assignment hvalue))
    exact hparts.wrap rfl rfl rfl

theorem expressionRule_writes (hg : g.Faithful) (h : g.expressionRule c s = .ok n t) :
    c.Writes s [n] t :=
  commaExpression_writes (assignmentRule_writes hg) h

end JsClass.Grammar
