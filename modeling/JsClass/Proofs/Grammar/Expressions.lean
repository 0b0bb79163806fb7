import Mathlib.Data.List.Basic
import JsClass.Proofs.Grammar.Super

/-! What the rules for expressions read. An access to a private member looks its name up. -/
namespace JsClass.Grammar

open Scope JsClass.Parser

variable {g : Grammar} {c : Context} {r s t : State} {n base : Node}

/-! Arguments, elements and accesses. -/

theorem spreadable_reads (hg : g.Sound) (h : g.spreadable c s = .ok n t) :
    c.Reads s [.ordinary c n] t := by
  simp only [spreadable, bind_eq_ok, peek_eq_ok, ite_eq_ok, pure_eq_ok] at h
  obtain ⟨_, _, ⟨rfl, rfl⟩, _, u, hu, ⟨-, x, v, hx, rfl, rfl⟩ | ⟨-, h⟩⟩ := h
  · exact ((accept_reads hu).trans (hg.assignment hx)).ordinary rfl trivial
  · exact (accept_reads hu).trans (hg.assignment h)

theorem arguments_reads (hg : g.Sound) {ns : List Node} (h : g.arguments c s = .ok ns t) :
    c.Reads s (ns.map (.ordinary c)) t := by
  rw [List.map_eq_flatMap]
  exact separated_reads (spreadable_reads hg) h

theorem array_reads (hg : g.Sound) (h : g.array c s = .ok n t) : c.Reads s [.ordinary c n] t := by
  simp only [array, bind_eq_ok, pure_eq_ok] at h
  obtain ⟨_, u, hu, elements, v, hv, rfl, rfl⟩ := h
  have helements : c.Reads u (elements.flatMap fun x => x.toList.map (.ordinary c)) v := by
    refine separated_reads ?_ hv
    intro s x t hx
    simp only [element, bind_eq_ok, check_eq_ok, ite_eq_ok, pure_eq_ok] at hx
    obtain ⟨_, _, ⟨-, rfl⟩, ⟨-, rfl, rfl⟩ | ⟨-, x, v, hx, rfl, rfl⟩⟩ := hx
    · exact .rfl'
    · exact spreadable_reads hg hx
  have hparts : (elements.flatMap fun x => x.toList.map (.ordinary c)) =
      (elements.filterMap id).map (Part.ordinary c) := by
    rw [List.filterMap_eq_flatMap_toList, List.map_flatMap]
    rfl
  rw [hparts] at helements
  exact ((expect_reads hu).trans helements).ordinary rfl trivial

/-- A private name behind a point is looked up in the classes around it. -/
theorem dotProperty_reads {p : Node} (hb : c.Reads r [.ordinary c base] s)
    (h : dotProperty c s = .ok p t) :
    c.Reads r [.ordinary c (base.wrap (.member base p false))] t := by
  simp only [dotProperty, bind_eq_ok, peek_eq_ok, context_eq_ok, ite_eq_ok, onScope_eq_ok,
    pure_eq_ok, Bool.and_eq_true, beq_iff_eq] at h
  obtain ⟨_, _, ⟨rfl, rfl⟩, _, _, ⟨rfl, rfl⟩,
    ⟨⟨hd, -⟩, i, u, hu, _, _, ⟨scope, huse, rfl⟩, rfl, rfl⟩ | ⟨-, i, u, hu, rfl, rfl⟩⟩ := h
  · have hparts : c.Reads r [.ordinary c base, .label c ⟨.privateName i.name, i.pos⟩] u :=
      hb.trans (privateName_reads hd rfl hu)
    refine .single ⟨trivial, hparts.formed⟩ ?_ hparts.tokens
    intro _
    have hrun := hparts.scope hd
    have hcalls : (base.wrap (.member base ⟨.privateName i.name, i.pos⟩ false)).calls =
        [Part.ordinary c base, .label c ⟨.privateName i.name, i.pos⟩].flatMap Part.calls
          ++ [.use i.name i.pos] := by
      rw [Node.calls_of_not_class rfl, ← Part.calls_parts c rfl]
      rfl
    rw [Part.calls_ordinary, hcalls, run_append hrun]
    simp [run, Call.apply, huse]
  · exact (hb.trans (propertyWord_reads hu)).ordinary rfl trivial

/-- A call of `super` does not stand in a private method. -/
theorem subscript_reads (hg : g.Sound) {calls : Bool} {next : Option Node}
    (hb : c.Reads r [.ordinary c base] s) (hsuper : base.isSuper → c.AfterSuper s)
    (h : g.subscript calls base c s = .ok next t) :
    c.Reads r [.ordinary c (next.getD base)] t := by
  simp only [subscript, bind_eq_ok, peek_eq_ok] at h
  obtain ⟨_, _, ⟨rfl, rfl⟩, h⟩ := h
  cases hk : (c.next s).kind
  case punct p =>
    by_cases hdot : p = .dot
    · subst hdot
      simp only [hk, bind_eq_ok, pure_eq_ok] at h
      obtain ⟨_, u, hu, p, v, hv, rfl, rfl⟩ := h
      have hu : c.Reads s [] u := advance_reads (by rw [hk]; rfl) hu
      exact dotProperty_reads (hb.trans hu) hv
    by_cases hbracket : p = .lbracket
    · subst hbracket
      simp only [hk, bind_eq_ok, pure_eq_ok] at h
      obtain ⟨_, u, hu, p, v, hv, _, w, hw, rfl, rfl⟩ := h
      have hu : c.Reads s [] u := advance_reads (by rw [hk]; rfl) hu
      have hp := expression_reads hg hv
      have hprivate := (hp.formed _ List.mem_cons_self).isPrivateName_eq_false
      refine (hb.trans (hu.trans (hp.trans (expect_reads hw)))).ordinary ?_ trivial
      simp [Node.isSilent, Node.accessed?, Node.privateName?_eq_none hprivate, Node.wrap,
        Node.shape, Node.isClass, Node.leaf?]
    by_cases hparen : p = .lparen
    · subst hparen
      simp only [hk, ite_eq_ok, bind_eq_ok, pure_eq_ok] at h
      obtain ⟨-, _, u, hu, ns, v, hv, rfl, rfl⟩ | ⟨-, rfl, rfl⟩ := h
      · have hu : c.Reads s [] u := advance_reads (by rw [hk]; rfl) hu
        refine (hb.trans (hu.trans (arguments_reads hg hv))).ordinary rfl fun hbase => ?_
        simpa [Context.AfterSuper, hk] using hsuper hbase
      · exact hb
    simp [hk, hdot, hbracket, hparen] at h
    obtain ⟨rfl, rfl⟩ := h
    exact hb
  all_goals
    simp only [hk, pure_eq_ok] at h
    obtain ⟨rfl, rfl⟩ := h
    exact hb

theorem subscripts_reads (hg : g.Sound) {calls : Bool} (hb : c.Reads r [.ordinary c base] s)
    (hsuper : base.isSuper → c.AfterSuper s) (h : g.subscripts calls base c s = .ok n t) :
    c.Reads r [.ordinary c n] t := by
  refine extend_induction (P := fun x s y t => c.Reads r [.ordinary c x] s →
    (x.isSuper → c.AfterSuper s) → c.Reads r [.ordinary c y] t) ?_ ?_ h hb hsuper
  · intro x s t hx hr hsuper
    exact subscript_reads hg hr hsuper hx
  · intro x s y u z t hx ih hr hsuper
    refine ih (subscript_reads hg hr hsuper hx) fun hy => ?_
    rw [(subscript_some calls x).of_ok hx y rfl] at hy
    cases hy

theorem newExpression_reads (hg : g.Sound) (h : g.newExpression c s = .ok n t) :
    c.Reads s [.ordinary c n] t := by
  simp only [newExpression, bind_eq_ok, peek_eq_ok, ite_eq_ok, reject_eq_ok, and_false, false_or,
    pure_eq_ok] at h
  obtain ⟨_, u, hu, _, _, ⟨rfl, rfl⟩, -, x, v, hv, y, w, hw, _, z, hz,
    ⟨-, ns, a, ha, rfl, rfl⟩ | ⟨-, rfl, rfl⟩⟩ := h
  · have hy := subscripts_reads hg (hg.atom hv) (hg.atom_super hv) hw
    exact ((expectKeyword_reads hu).trans (hy.trans ((accept_reads hz).trans
      (arguments_reads hg ha)))).ordinary rfl fun h => (subscripts_super (hg.atom_super hv) hw h).2
  · have hy := subscripts_reads hg (hg.atom hv) (hg.atom_super hv) hw
    exact ((expectKeyword_reads hu).trans (hy.trans (accept_reads hz))).ordinary rfl
      fun h => (subscripts_super (hg.atom_super hv) hw h).2

/-! Atoms. -/

/-- The keyword `super` does not stand in the value of a static field. -/
theorem superExpression_reads (h : superExpression c s = .ok n t) :
    c.Reads s [.ordinary c n] t := by
  obtain ⟨hstatic, -, x, hx, rfl⟩ := superExpression_eq_ok h
  exact (expectKeyword_reads hx).ordinary rfl hstatic

theorem nameExpression_reads (hg : g.Sound) (hk : (c.next s).kind.isLeaf = false)
    (h : g.nameExpression c s = .ok n t) : c.Reads s [.ordinary c n] t := by
  simp only [nameExpression, bind_eq_ok, peek_eq_ok, ite_eq_ok, pure_eq_ok] at h
  obtain ⟨_, _, ⟨rfl, rfl⟩, b, v, hv, h⟩ := h
  obtain ⟨rfl, hasync⟩ := isAsyncFunction_eq_ok hv
  obtain ⟨hb, _, u, hu, h⟩ | ⟨-, i, u, hu, _, _, ⟨rfl, rfl⟩, ⟨-, h⟩ | ⟨-, rfl, rfl⟩⟩ := h
  · exact (advance_reads hk hu).trans (function_reads hg (fun _ => (hasync hb).1) h)
  · refine arrow_reads hg ?_ h
    exact (ident_reads hu).ordinary rfl trivial
  · exact ident_reads hu

theorem parenExpression_reads (hg : g.Sound) (h : g.parenExpression c s = .ok n t) :
    c.Reads s [.ordinary c n] t := by
  simp only [parenExpression, isArrowParams, bind_eq_ok, context_eq_ok, peek_eq_ok, pending_eq_ok,
    ite_eq_ok, pure_eq_ok] at h
  obtain ⟨_, _, ⟨rfl, rfl⟩, _, _, ⟨_, _, ⟨rfl, rfl⟩, _, _, ⟨rfl, rfl⟩, -, rfl⟩,
    ⟨-, ps, u, hu, h⟩ | ⟨-, h⟩⟩ := h
  · exact arrow_reads hg (params_reads hg hu) h
  · exact parenthesized_reads hg h

theorem atomRule_reads (hg : g.Sound) (h : g.atomRule c s = .ok n t) :
    c.Reads s [.ordinary c n] t := by
  simp only [atomRule, bind_eq_ok, peek_eq_ok] at h
  obtain ⟨_, _, ⟨rfl, rfl⟩, h⟩ := h
  cases hk : (c.next s).kind <;> simp only [hk, unexpected_eq_ok] at h
  case name => exact nameExpression_reads hg (by rw [hk]; rfl) h
  case number raw =>
    simp only [bind_eq_ok, advance_eq_ok, numberLiteral_eq_ok] at h
    obtain ⟨_, _, ⟨-, rfl⟩, value, -, rfl, rfl⟩ := h
    exact .leaf rfl trivial rfl (by rw [hk]; rfl) (by rw [hk]; rfl)
  case string value =>
    simp only [bind_eq_ok, advance_eq_ok, pure_eq_ok] at h
    obtain ⟨_, _, ⟨-, rfl⟩, rfl, rfl⟩ := h
    exact .leaf rfl trivial rfl (by rw [hk]; rfl) (by rw [hk]; rfl)
  case punct p =>
    cases p <;> simp only [unexpected_eq_ok] at h
    case lparen => exact parenExpression_reads hg h
    case lbracket => exact array_reads hg h
    case lbrace => exact object_reads hg h
  case keyword k =>
    cases k <;> simp only [unexpected_eq_ok] at h
    case super_ => exact superExpression_reads h
    case function_ => exact function_reads hg (by simp) h
    case class_ => exact class_reads hg h
    case new_ => exact newExpression_reads hg h
    all_goals
      simp only [bind_eq_ok, pure_eq_ok] at h
      obtain ⟨_, u, hu, rfl, rfl⟩ := h
      have hu : c.Reads s [] u := advance_reads (by rw [hk]; rfl) hu
      exact hu.ordinary rfl trivial

theorem subscriptedRule_reads (hg : g.Sound) (h : g.subscriptedRule c s = .ok n t) :
    c.Reads s [.ordinary c n] t := by
  simp only [subscriptedRule, bind_eq_ok, ite_eq_ok, pure_eq_ok] at h
  obtain ⟨x, u, hu, ⟨-, rfl, rfl⟩ | ⟨-, h⟩⟩ := h
  · exact atomRule_reads hg hu
  · exact subscripts_reads hg (atomRule_reads hg hu) (atomRule_super hg.assignment_neverSuper hu) h

/-! Operators. -/

theorem checkTarget_eq_ok {u : Unit} (h : checkTarget n c s = .ok u t) : s = t := by
  simp only [checkTarget, ite_eq_ok, reject_eq_ok, pure_eq_ok, and_false, or_false] at h
  exact h.2.2

/-- The token of an operator leaves nothing in the tree. -/
theorem operator_reads {α : Type} {ops : List α} {kind : α → Kind} {op : α} {z : Token}
    (hops : ∀ op, (kind op).isLeaf = false) (hop : ops.find? (kind · == (c.next s).kind) = some op)
    (hz : advance c s = .ok z t) : c.Reads s [] t :=
  advance_reads (Kind.of_find? (P := (·.isLeaf = false)) hops hop) hz

/-- An operator behind its operand is taken, or nothing is. -/
theorem postfixUpdate_cases {next : Option Node} (h : postfixUpdate base c s = .ok next t) :
    next = none ∧ s = t ∨
      ∃ op z, UpdateOp.ofKind? (c.next s).kind = some op ∧ advance c s = .ok z t ∧
        next = some (base.wrap (.update op base false)) := by
  simp only [postfixUpdate, bind_eq_ok, peek_eq_ok] at h
  obtain ⟨_, _, ⟨rfl, rfl⟩, h⟩ := h
  cases hop : UpdateOp.ofKind? (c.next s).kind with
  | none =>
    simp only [hop, pure_eq_ok] at h
    obtain ⟨rfl, rfl⟩ := h
    exact Or.inl ⟨rfl, rfl⟩
  | some op =>
    simp only [hop, ite_eq_ok, bind_eq_ok, pure_eq_ok] at h
    obtain ⟨-, rfl, rfl⟩ | ⟨-, _, u, hu, z, v, hv, rfl, rfl⟩ := h
    · exact Or.inl ⟨rfl, rfl⟩
    · obtain rfl := checkTarget_eq_ok hu
      exact Or.inr ⟨op, z, rfl, hv, rfl⟩

theorem postfixUpdate_reads {next : Option Node} (hb : c.Reads r [.ordinary c base] s)
    (h : postfixUpdate base c s = .ok next t) : c.Reads r [.ordinary c (next.getD base)] t := by
  rcases postfixUpdate_cases h with ⟨rfl, rfl⟩ | ⟨op, z, hop, hz, rfl⟩
  · exact hb
  · have hz : c.Reads s [] t := operator_reads (by intro op; cases op <;> rfl) hop hz
    exact (hb.trans hz).ordinary rfl trivial

/-- No access to a private member is deleted. -/
theorem unaryOperator_reads (hg : g.Sound) {x : Token} {op : UnaryOp}
    (h : g.unaryOperator x op c s = .ok n t) : c.Reads s [.ordinary c n] t := by
  simp only [unaryOperator, bind_eq_ok, ite_eq_ok, checkDelete, context_eq_ok, reject_eq_ok,
    pure_eq_ok, and_false, false_or, beq_iff_eq] at h
  obtain ⟨y, u, hu, h⟩ := h
  have hn : n = x.node (.unary op y) ∧ u = t ∧ (op = .delete → y.isPrivateAccess = false) := by
    obtain ⟨-, _, _, ⟨_, _, ⟨rfl, rfl⟩, -, hp, -, rfl⟩, rfl, rfl⟩ | ⟨hop, rfl, rfl⟩ := h
    · exact ⟨rfl, rfl, fun _ => by simpa using hp⟩
    · exact ⟨rfl, rfl, fun h => absurd h hop⟩
  obtain ⟨rfl, rfl, hdelete⟩ := hn
  refine (hg.unary hu).ordinary rfl ?_
  cases op
  case delete => exact hdelete rfl
  all_goals trivial

theorem prefixUpdate_reads (hg : g.Sound) {x : Token} {op : UpdateOp}
    (h : g.prefixUpdate x op c s = .ok n t) : c.Reads s [.ordinary c n] t := by
  simp only [prefixUpdate, bind_eq_ok, pure_eq_ok] at h
  obtain ⟨y, u, hu, _, v, hv, rfl, rfl⟩ := h
  obtain rfl := checkTarget_eq_ok hv
  exact (hg.unary hu).ordinary rfl trivial

theorem unaryRule_reads (hg : g.Sound) (h : g.unaryRule c s = .ok n t) :
    c.Reads s [.ordinary c n] t := by
  simp only [unaryRule, bind_eq_ok, peek_eq_ok, context_eq_ok, ite_eq_ok, pure_eq_ok,
    Bool.and_eq_true, beq_iff_eq] at h
  obtain ⟨_, _, ⟨rfl, rfl⟩, _, _, ⟨rfl, rfl⟩, ⟨⟨hasync, hk⟩, _, u, hu, y, v, hv, rfl, rfl⟩ |
    ⟨-, h⟩⟩ := h
  · have hu : c.Reads s [] u := advance_reads (by rw [hk]; rfl) hu
    exact (hu.trans (hg.unary hv)).ordinary rfl hasync
  · cases hop : UnaryOp.ofKind? (c.next s).kind with
    | some op =>
      simp only [hop, bind_eq_ok] at h
      obtain ⟨_, u, hu, h⟩ := h
      have hu : c.Reads s [] u := operator_reads (by intro op; cases op <;> rfl) hop hu
      exact hu.trans (unaryOperator_reads hg h)
    | none =>
      cases hop' : UpdateOp.ofKind? (c.next s).kind with
      | some op =>
        simp only [hop, hop', bind_eq_ok] at h
        obtain ⟨_, u, hu, h⟩ := h
        have hu : c.Reads s [] u := operator_reads (by intro op; cases op <;> rfl) hop' hu
        exact hu.trans (prefixUpdate_reads hg h)
      | none =>
        simp only [hop, hop', bind_eq_ok] at h
        obtain ⟨x, u, hu, h⟩ := h
        refine extend_induction (P := fun x u y t =>
          c.Reads s [.ordinary c x] u → c.Reads s [.ordinary c y] t) ?_ ?_ h
          (subscriptedRule_reads hg hu)
        · intro x s t hx hr
          exact postfixUpdate_reads hr hx
        · intro x s y u z t hx ih hr
          exact ih (postfixUpdate_reads hr hx)

/-- Climbing stops before an operator, or takes it with its right operand and goes on. -/
theorem climb_cases {unary : Parser Node} {turns bound : Nat} {left : Node}
    (h : climb unary (turns + 1) bound left c s = .ok n t) :
    left = n ∧ s = t ∨ ∃ op z u x v right w, BinaryOp.ofKind? (c.next s).kind = some op ∧
      advance c s = .ok z u ∧ unary c u = .ok x v ∧
      climb unary turns op.rightBound x c v = .ok right w ∧
      climb unary turns bound (left.wrap (.binary left op right)) c w = .ok n t := by
  simp only [climb, bind_eq_ok, peek_eq_ok] at h
  obtain ⟨_, _, ⟨rfl, rfl⟩, h⟩ := h
  cases hop : BinaryOp.ofKind? (c.next s).kind with
  | none =>
    simp only [hop, pure_eq_ok] at h
    exact Or.inl h
  | some op =>
    simp only [hop, ite_eq_ok, pure_eq_ok, bind_eq_ok] at h
    obtain ⟨-, h⟩ | ⟨-, z, u, hz, x, v, hx, right, w, hright, hrest⟩ := h
    · exact Or.inl h
    · exact Or.inr ⟨op, z, u, x, v, right, w, rfl, hz, hx, hright, hrest⟩

/-- The operators that a left operand is followed by, by induction over their number. -/
theorem climb_reads {unary : Parser Node} (hu : unary.ReadsNode) {turns bound : Nat} {left : Node}
    (hl : c.Reads r [.ordinary c left] s) (h : climb unary turns bound left c s = .ok n t) :
    c.Reads r [.ordinary c n] t := by
  induction turns generalizing bound left r s n t with
  | zero => simp [climb] at h
  | succ turns ih =>
    rcases climb_cases h with ⟨rfl, rfl⟩ | ⟨op, z, u, x, v, right, w, hop, hz, hx, hright, hrest⟩
    · exact hl
    · have hz : c.Reads s [] u := operator_reads (by intro op; cases op <;> rfl) hop hz
      have hboth : c.Reads r [.ordinary c (left.wrap (.binary left op right))] w :=
        (hl.trans (hz.trans (ih (hu hx) hright))).ordinary rfl trivial
      exact ih hboth hrest

theorem binaryRule_reads (hg : g.Sound) (h : g.binaryRule c s = .ok n t) :
    c.Reads s [.ordinary c n] t := by
  simp only [binaryRule, bind_eq_ok] at h
  obtain ⟨x, u, hu, h⟩ := h
  exact climb_reads (unaryRule_reads hg) (unaryRule_reads hg hu) h

theorem conditionalRule_reads (hg : g.Sound) (h : g.conditionalRule c s = .ok n t) :
    c.Reads s [.ordinary c n] t := by
  simp only [conditionalRule, bind_eq_ok, ite_eq_ok, pure_eq_ok] at h
  obtain ⟨x, u, hu, _, v, hv, ⟨-, y, w, hw, _, a, ha, z, b, hb, rfl, rfl⟩ | ⟨-, rfl, rfl⟩⟩ := h
  · have hx := binaryRule_reads hg hu
    exact (hx.trans ((accept_reads hv).trans ((hg.assignment hw).trans
      ((expect_reads ha).trans (hg.assignment hb))))).ordinary rfl trivial
  · exact (binaryRule_reads hg hu).trans (accept_reads hv)

theorem yieldExpression_reads (hg : g.Sound) (hgen : c.inGenerator = true)
    (hk : (c.next s).kind.isLeaf = false) (h : g.yieldExpression c s = .ok n t) :
    c.Reads s [.ordinary c n] t := by
  simp only [yieldExpression, bind_eq_ok, peek_eq_ok, ite_eq_ok, pure_eq_ok] at h
  obtain ⟨_, u, hu, _, _, ⟨rfl, rfl⟩, ⟨-, rfl, rfl⟩ | ⟨-, _, v, hv, x, w, hw, rfl, rfl⟩⟩ := h
  · have hu : c.Reads s [] u := advance_reads hk hu
    exact hu.ordinary rfl hgen
  · have hu : c.Reads s [] u := advance_reads hk hu
    exact (hu.trans ((accept_reads hv).trans (hg.assignment hw))).ordinary rfl hgen

/-- In a generator the word `yield` begins an expression of its own. Elsewhere there may be an
operator behind the target, and a value behind that. -/
theorem assignmentRule_cases (h : g.assignmentRule c s = .ok n t) :
    (c.inGenerator = true ∧ (c.next s).kind = .name "yield" ∧ g.yieldExpression c s = .ok n t) ∨
      g.conditionalRule c s = .ok n t ∨
      ∃ target u op z v value, g.conditionalRule c s = .ok target u ∧
        AssignOp.ofKind? (c.next u).kind = some op ∧ advance c u = .ok z v ∧
        g.assignment c v = .ok value t ∧ n = target.wrap (.assign target op value) := by
  simp only [assignmentRule, bind_eq_ok, checkWord_eq_ok, context_eq_ok, ite_eq_ok, peek_eq_ok,
    Bool.and_eq_true] at h
  obtain ⟨_, _, ⟨rfl, rfl⟩, _, _, ⟨rfl, rfl⟩, ⟨⟨hgen, hk⟩, h⟩ |
    ⟨-, target, u, hu, _, _, ⟨rfl, rfl⟩, h⟩⟩ := h
  · exact Or.inl ⟨hgen, beq_iff_eq.1 hk, h⟩
  · right
    cases hop : AssignOp.ofKind? (c.next u).kind with
    | none =>
      simp only [hop, pure_eq_ok] at h
      obtain ⟨rfl, rfl⟩ := h
      exact Or.inl hu
    | some op =>
      simp only [hop, bind_eq_ok, pure_eq_ok] at h
      obtain ⟨_, _, hcheck, z, v, hz, value, w, hvalue, rfl, rfl⟩ := h
      obtain rfl := checkTarget_eq_ok hcheck
      exact Or.inr ⟨target, u, op, z, v, value, hu, hop, hz, hvalue, rfl⟩

theorem assignmentRule_reads (hg : g.Sound) (h : g.assignmentRule c s = .ok n t) :
    c.Reads s [.ordinary c n] t := by
  rcases assignmentRule_cases h with ⟨hgen, hk, h⟩ | h |
    ⟨target, u, op, z, v, value, htarget, hop, hz, hvalue, rfl⟩
  · exact yieldExpression_reads hg hgen (by rw [hk]; rfl) h
  · exact conditionalRule_reads hg h
  · have hz : c.Reads u [] v := operator_reads (by intro op; cases op <;> rfl) hop hz
    have hparts := (conditionalRule_reads hg htarget).trans (hz.trans (hg.assignment hvalue))
    exact hparts.ordinary rfl trivial

theorem expressionRule_reads (hg : g.Sound) (h : g.expressionRule c s = .ok n t) :
    c.Reads s [.ordinary c n] t :=
  commaExpression_reads (assignmentRule_reads hg) h

end JsClass.Grammar
