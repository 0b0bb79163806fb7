import JsClass.Proofs.Grammar.Repeat

/-! What the rules for functions and for the properties of objects read. -/
namespace JsClass

open JsClass.Parser

/-- Every run of the rule that succeeds reads the node that it returns. -/
def Parser.ReadsNode (p : Parser Node) : Prop :=
  ∀ {c s n t}, p c s = .ok n t → c.Reads s [.ordinary c n] t

/-- Every run of the rule that succeeds returns such a value. -/
def Parser.Returns {α : Type} (P : α → Prop) (p : Parser α) : Prop :=
  ∀ c s a t, p c s = .ok a t → P a

/-- No run of the rule returns `super` by itself. -/
def Parser.NeverSuper (p : Parser Node) : Prop := p.Returns fun n => n.isSuper = false

/-- What may come behind `super`: an access, or a call outside of private methods. -/
def Context.AfterSuper (c : Context) (s : State) : Prop :=
  (c.next s).kind = .punct .dot ∨ (c.next s).kind = .punct .lbracket ∨
    (c.next s).kind = .punct .lparen ∧ c.inPrivateMethod = false

namespace Grammar

/-- What is needed of the rules that others come back to. Only an atom can be `super` by itself. -/
structure Sound (g : Grammar) : Prop where
  statement : g.statement.ReadsNode
  assignment : g.assignment.ReadsNode
  unary : g.unary.ReadsNode
  subscripted : g.subscripted.ReadsNode
  atom : g.atom.ReadsNode
  assignment_neverSuper : g.assignment.NeverSuper
  atom_super : ∀ {c s n t}, g.atom c s = .ok n t → n.isSuper → c.AfterSuper t

variable {g : Grammar} {c : Context} {s t : State} {n : Node}

theorem commaExpression_reads {turns : Nat} {assignment : Parser Node} (ha : assignment.ReadsNode)
    (h : commaExpression turns assignment c s = .ok n t) : c.Reads s [.ordinary c n] t := by
  simp only [commaExpression, bind_eq_ok, ite_eq_ok, pure_eq_ok, check_eq_ok] at h
  obtain ⟨first, u, hu, _, _, ⟨-, rfl⟩, ⟨-, rest, v, hv, rfl, rfl⟩ | ⟨-, rfl, rfl⟩⟩ := h
  · have hrest : c.Reads u (rest.map (.ordinary c)) v := by
      rw [List.map_eq_flatMap]
      refine collect_reads ?_ hv
      intro s r t hr
      simp only [bind_eq_ok, ite_eq_ok, pure_eq_ok] at hr
      obtain ⟨_, u, hu, ⟨-, x, v, hx, rfl, rfl⟩ | ⟨-, rfl, rfl⟩⟩ := hr
      · exact (accept_reads hu).trans (ha hx)
      · exact accept_reads hu
    exact ((ha hu).trans hrest).ordinary rfl trivial
  · exact ha hu

theorem expression_reads (hg : g.Sound) (h : g.expression c s = .ok n t) :
    c.Reads s [.ordinary c n] t :=
  commaExpression_reads hg.assignment h

theorem parenthesized_reads (hg : g.Sound) (h : g.parenthesized c s = .ok n t) :
    c.Reads s [.ordinary c n] t := by
  simp only [parenthesized, bind_eq_ok, pure_eq_ok] at h
  obtain ⟨_, u, hu, e, v, hv, _, w, hw, rfl, rfl⟩ := h
  exact (expect_reads hu).trans ((expression_reads hg hv).trans (expect_reads hw))

theorem statementsUntil_reads (hg : g.Sound) {ends : Kind → Bool} {ns : List Node}
    (h : g.statementsUntil ends c s = .ok ns t) : c.Reads s (ns.map (.ordinary c)) t := by
  rw [List.map_eq_flatMap]
  refine collect_reads ?_ h
  intro s r t hr
  simp only [bind_eq_ok, peek_eq_ok, ite_eq_ok, pure_eq_ok] at hr
  obtain ⟨_, _, ⟨rfl, rfl⟩, ⟨-, rfl, rfl⟩ | ⟨-, x, u, hx, rfl, rfl⟩⟩ := hr
  · exact .rfl'
  · exact hg.statement hx

theorem block_reads (hg : g.Sound) (h : g.block c s = .ok n t) : c.Reads s [.ordinary c n] t := by
  simp only [block, bind_eq_ok, pure_eq_ok] at h
  obtain ⟨_, u, hu, ns, v, hv, _, w, hw, rfl, rfl⟩ := h
  have := (expect_reads hu).trans ((statementsUntil_reads hg hv).trans (expect_reads hw))
  rw [List.nil_append, List.append_nil] at this
  exact this.ordinary rfl trivial

/-! Functions. -/

theorem closeRest_reads {u : Unit} (h : closeRest c s = .ok u t) : c.Reads s [] t := by
  simp only [closeRest, bind_eq_ok, peek_eq_ok, ite_eq_ok, pure_eq_ok, reject_eq_ok, and_false,
    or_false] at h
  obtain ⟨_, _, ⟨rfl, rfl⟩, hk, _, v, hv, -, rfl⟩ := h
  exact advance_reads (by rw [beq_iff_eq.1 hk]; rfl) hv

theorem initializer?_reads (hg : g.Sound) {value : Option Node}
    (h : g.initializer? c s = .ok value t) : c.Reads s (value.toList.map (.ordinary c)) t := by
  simp only [initializer?, bind_eq_ok, ite_eq_ok, pure_eq_ok] at h
  obtain ⟨_, u, hu, ⟨-, x, v, hx, rfl, rfl⟩ | ⟨-, rfl, rfl⟩⟩ := h
  · exact (accept_reads hu).trans (hg.assignment hx)
  · exact accept_reads hu

theorem params_reads (hg : g.Sound) {ns : List Node} (h : g.params c s = .ok ns t) :
    c.Reads s (ns.map (.ordinary c)) t := by
  simp only [params, bind_eq_ok] at h
  obtain ⟨_, u, hu, h⟩ := h
  rw [List.map_eq_flatMap]
  refine (expect_reads hu).trans (collect_reads ?_ h)
  intro s r t hr
  simp only [bind_eq_ok, ite_eq_ok, pure_eq_ok, peek_eq_ok, check_eq_ok] at hr
  obtain ⟨_, u, hu, ⟨-, rfl, rfl⟩ | ⟨-, _, _, ⟨rfl, rfl⟩, _, v, hv,
    ⟨-, name, w, hw, _, x, hx, rfl, rfl⟩ |
    ⟨-, name, w, hw, value, x, hx, _, _, ⟨-, rfl⟩, hr⟩⟩⟩ := hr
  · exact accept_reads hu
  · have := (accept_reads hu).trans ((accept_reads hv).trans
      ((ident_reads hw).trans (closeRest_reads hx)))
    exact this.ordinary rfl trivial
  · have hp : c.Reads s [.ordinary c ((c.next u).node (.param name.node value false))] x := by
      have := (accept_reads hu).trans ((accept_reads hv).trans
        ((ident_reads hw).trans (initializer?_reads hg hx)))
      refine .ordinary ?_ rfl trivial
      cases value <;> exact this
    obtain ⟨-, rfl, rfl⟩ | ⟨-, _, y, hy, rfl, rfl⟩ := hr
    · exact hp
    · exact hp.trans (expect_reads hy)

/-- Parameters and body stand inside of the function. -/
theorem functionRest_reads (hg : g.Sound) {isAsync isGenerator : Bool} {ps : List Node} {b : Node}
    (h : g.functionRest isAsync isGenerator c s = .ok (ps, b) t) :
    c.Reads s (ps.map (.ordinary (c.function isAsync isGenerator))
      ++ [.ordinary (c.function isAsync isGenerator) b]) t := by
  simp only [functionRest, within_apply, bind_eq_ok, pure_eq_ok, Prod.mk.injEq] at h
  obtain ⟨ps, u, hu, b, v, hv, ⟨rfl, rfl⟩, rfl⟩ := h
  exact (params_reads hg hu).trans (block_reads hg hv)

theorem functionName?_reads {form : FunctionForm} {name : Option Node}
    (h : functionName? form c s = .ok name t) : c.Reads s (name.toList.map (.ordinary c)) t := by
  simp only [functionName?, bind_eq_ok, peek_eq_ok, ite_eq_ok, pure_eq_ok, reject_eq_ok, and_false,
    false_or] at h
  obtain ⟨_, _, ⟨rfl, rfl⟩, ⟨-, i, u, hu, rfl, rfl⟩ | ⟨-, -, rfl, rfl⟩⟩ := h
  · exact ident_reads hu
  · exact .rfl'

theorem function_reads (hg : g.Sound) {form : FunctionForm} {isAsync : Bool}
    (hasync : isAsync → 8 ≤ c.options.edition.number)
    (h : g.function form isAsync c s = .ok n t) : c.Reads s [.ordinary c n] t := by
  simp only [function, bind_eq_ok, context_eq_ok, ite_eq_ok, reject_eq_ok, pure_eq_ok, and_false,
    false_or, Bool.and_eq_true, decide_eq_true_eq] at h
  obtain ⟨_, u, hu, isGenerator, v, hv, _, _, ⟨rfl, rfl⟩, hearly, name, w, hw, ⟨ps, b⟩, x, hx,
    rfl, rfl⟩ := h
  have hsince : functionSince isAsync isGenerator ≤ c.options.edition.number :=
    (functionSince_le _).2 ⟨hasync, fun ha hgen => Nat.not_lt.1 fun hlt => hearly ⟨⟨ha, hgen⟩, hlt⟩⟩
  exact ((expectKeyword_reads hu).trans ((accept_reads hv).trans
    ((functionName?_reads hw).trans (functionRest_reads hg hx)))).ordinary rfl hsince

/-- The word `async` makes a function asynchronous in the editions that have such functions. -/
theorem isAsyncFunction_eq_ok {b : Bool} (h : isAsyncFunction c s = .ok b t) :
    s = t ∧ (b → 8 ≤ c.options.edition.number ∧ (c.next s).kind = .name "async") := by
  simp only [isAsyncFunction, bind_eq_ok, context_eq_ok, peek_eq_ok, peekAt_eq_ok,
    pure_eq_ok] at h
  obtain ⟨_, _, ⟨rfl, rfl⟩, _, _, ⟨rfl, rfl⟩, _, _, ⟨rfl, rfl⟩, rfl, rfl⟩ := h
  refine ⟨rfl, fun hb => ?_⟩
  simp only [Bool.and_eq_true, decide_eq_true_eq, beq_iff_eq] at hb
  exact hb.1.1

/-- A method's value is a function without a name. -/
theorem method_reads (hg : g.Sound) {isAsync isGenerator : Bool}
    (hsince : functionSince isAsync isGenerator ≤ c.options.edition.number)
    (h : g.method isAsync isGenerator c s = .ok n t) :
    c.Reads s [.ordinary c n] t ∧ ∃ params body,
      n.shape = .function .expression none params body isAsync isGenerator := by
  simp only [method, bind_eq_ok, peek_eq_ok, pure_eq_ok] at h
  obtain ⟨_, _, ⟨rfl, rfl⟩, ⟨ps, b⟩, u, hu, rfl, rfl⟩ := h
  exact ⟨(functionRest_reads hg hu).ordinary rfl hsince, ps, b, rfl⟩

/-- The body of an arrow function stands inside of it, and its parameters do not. -/
theorem arrow_reads (hg : g.Sound) {ps : List Node} {start : Token} {r : State}
    (hp : c.Reads r (ps.map (.ordinary c)) s) (h : g.arrow ps start c s = .ok n t) :
    c.Reads r [.ordinary c n] t := by
  simp only [arrow, within_apply, bind_eq_ok, ite_eq_ok, check_eq_ok, pure_eq_ok] at h
  obtain ⟨_, u, hu, _, _, ⟨-, rfl⟩, ⟨-, b, v, hv, rfl, rfl⟩ | ⟨-, b, v, hv, rfl, rfl⟩⟩ := h
  · have hb := block_reads hg hv
    exact (hp.trans ((expect_reads hu).trans hb)).ordinary rfl trivial
  · have hb := hg.assignment hv
    exact (hp.trans ((expect_reads hu).trans hb)).ordinary rfl trivial

/-! Keys and properties. -/

theorem numberLiteral_eq_ok {x : Token} {raw : String} :
    numberLiteral x raw c s = .ok n t ↔
      ∃ value, Numeral.ofText? raw = some value ∧ x.node (.number value raw) = n ∧ s = t := by
  cases h : Numeral.ofText? raw <;> simp [numberLiteral, h]

theorem checkAccessor_reads {accessor : Option Accessor} {function : Node} {u : Unit}
    (h : checkAccessor accessor function c s = .ok u t) : c.Reads s [] t := by
  rcases accessor with _ | _ | _
  · obtain ⟨-, rfl⟩ := pure_eq_ok.1 h
    exact .rfl'
  · cases hp : function.params with
    | nil =>
      simp only [checkAccessor, hp, pure_eq_ok] at h
      exact .refl (by rw [h.2]) (by rw [h.2])
    | cons =>
      simp only [checkAccessor, hp, report_eq_ok] at h
      exact .refl (by rw [← h]) (by rw [← h])
  · cases hp : function.params with
    | nil =>
      simp [checkAccessor, hp] at h
      exact .refl (by rw [← h]) (by rw [← h])
    | cons first rest =>
      simp only [checkAccessor, hp, bind_eq_ok, ite_eq_ok, report_eq_ok, pure_eq_ok] at h
      rcases h with ⟨-, _, _, rfl, ⟨-, rfl⟩ | ⟨-, -, rfl⟩⟩ | ⟨-, ⟨-, rfl⟩ | ⟨-, -, rfl⟩⟩
      all_goals exact .refl rfl rfl

/-- A key is no private name. -/
theorem propertyKey_reads (hg : g.Sound) {k : PropertyKey} (h : g.propertyKey c s = .ok k t) :
    c.Reads s [.key k.computed c k.node] t ∧ k.node.isPrivateName = false := by
  simp only [propertyKey, bind_eq_ok, peek_eq_ok] at h
  obtain ⟨_, _, ⟨rfl, rfl⟩, h⟩ := h
  cases hk : (c.next s).kind
  case number raw =>
    simp only [hk, bind_eq_ok, advance_eq_ok, numberLiteral_eq_ok, pure_eq_ok] at h
    obtain ⟨_, _, ⟨-, rfl⟩, _, _, ⟨value, -, rfl, rfl⟩, rfl, rfl⟩ := h
    exact ⟨.leaf rfl trivial rfl (by rw [hk]; rfl) (by rw [hk]; rfl), rfl⟩
  case string value =>
    simp only [hk, bind_eq_ok, advance_eq_ok, pure_eq_ok] at h
    obtain ⟨_, _, ⟨-, rfl⟩, rfl, rfl⟩ := h
    exact ⟨.leaf rfl trivial rfl (by rw [hk]; rfl) (by rw [hk]; rfl), rfl⟩
  case punct p =>
    by_cases hp : p = .lbracket
    · subst hp
      simp only [hk, bind_eq_ok, pure_eq_ok] at h
      obtain ⟨_, u, hu, key, v, hv, _, w, hw, rfl, rfl⟩ := h
      have hkey := hg.assignment hv
      have hu : c.Reads s [] u := advance_reads (by rw [hk]; rfl) hu
      refine ⟨hu.trans (hkey.trans (expect_reads hw)), ?_⟩
      exact (hkey.formed _ List.mem_cons_self).isPrivateName_eq_false
    · simp [hk, hp] at h
      obtain ⟨i, hi, rfl⟩ := h
      exact ⟨propertyWord_reads hi, rfl⟩
  all_goals
    simp only [hk, bind_eq_ok, pure_eq_ok] at h
    obtain ⟨i, u, hi, rfl, rfl⟩ := h
    exact ⟨propertyWord_reads hi, rfl⟩

theorem asyncStar_reads {r : Bool} (h : asyncStar c s = .ok r t) :
    c.Reads s [] t ∧ (r → 9 ≤ c.options.edition.number) := by
  simp only [asyncStar, bind_eq_ok, context_eq_ok, ite_eq_ok, pure_eq_ok] at h
  obtain ⟨_, _, ⟨rfl, rfl⟩, ⟨he, h⟩ | ⟨-, rfl, rfl⟩⟩ := h
  · exact ⟨accept_reads h, fun _ => he⟩
  · exact ⟨.rfl', by simp⟩

theorem propertyAccessor?_reads {a : Option Accessor} (h : propertyAccessor? c s = .ok a t) :
    c.Reads s [] t := by
  simp only [propertyAccessor?, bind_eq_ok, peekAt_eq_ok, ite_eq_ok, pure_eq_ok] at h
  obtain ⟨_, _, ⟨rfl, rfl⟩, ⟨-, -, rfl⟩ | ⟨-, _, u, hu, ⟨-, -, rfl⟩ |
    ⟨-, _, v, hv, ⟨-, -, rfl⟩ | ⟨-, -, rfl⟩⟩⟩⟩ := h
  · exact .rfl'
  · exact acceptKind_reads rfl hu
  · exact (acceptKind_reads rfl hu).trans (acceptKind_reads rfl hv)
  · exact (acceptKind_reads rfl hu).trans (acceptKind_reads rfl hv)

theorem propertyModifiers_reads {m : Modifiers} (h : propertyModifiers c s = .ok m t) :
    c.Reads s [] t ∧ functionSince m.isAsync m.isGenerator ≤ c.options.edition.number := by
  simp only [propertyModifiers, bind_eq_ok, context_eq_ok, peek_eq_ok, peekAt_eq_ok, ite_eq_ok,
    pure_eq_ok] at h
  obtain ⟨_, _, ⟨rfl, rfl⟩, _, _, ⟨rfl, rfl⟩, _, _, ⟨rfl, rfl⟩,
    ⟨hk, _, u, hu, isGenerator, v, hv, rfl, rfl⟩ |
    ⟨-, _, u, hu, ⟨-, rfl, rfl⟩ | ⟨-, a, v, hv, rfl, rfl⟩⟩⟩ := h
  · simp only [Bool.and_eq_true, decide_eq_true_eq, beq_iff_eq] at hk
    obtain ⟨hstar, hnine⟩ := asyncStar_reads hv
    refine ⟨(advance_reads (by rw [hk.1.1.2]; rfl) hu).trans hstar, ?_⟩
    exact (functionSince_le _).2 ⟨fun _ => hk.1.1.1, fun _ => hnine⟩
  · exact ⟨accept_reads hu, functionSince_sync _ _⟩
  · exact ⟨(accept_reads hu).trans (propertyAccessor?_reads hv), functionSince_sync _ _⟩

theorem methodProperty_reads (hg : g.Sound) {start : Token} {k : PropertyKey} {m : Modifiers}
    {r : State} (hk : c.Reads r [.key k.computed c k.node] s) (hp : k.node.isPrivateName = false)
    (hsince : functionSince m.isAsync m.isGenerator ≤ c.options.edition.number)
    (h : g.methodProperty start k m c s = .ok n t) : c.Reads r [.ordinary c n] t := by
  simp only [methodProperty, bind_eq_ok, pure_eq_ok] at h
  obtain ⟨value, u, hu, _, v, hv, rfl, rfl⟩ := h
  have := hk.trans ((method_reads hg hsince hu).1.trans (checkAccessor_reads hv))
  exact this.ordinary rfl hp

/-- A name that is key and value at once is read twice. -/
theorem plainProperty_reads (hg : g.Sound) {start keyToken : Token} {k : PropertyKey} {r : State}
    (hk : c.Reads r [.key k.computed c k.node] s) (hp : k.node.isPrivateName = false)
    (h : g.plainProperty start keyToken r.pending k c s = .ok n t) :
    c.Reads r [.ordinary c n] t := by
  simp only [plainProperty, bind_eq_ok, ite_eq_ok, restore_eq_ok, pure_eq_ok, unexpectedNext_eq_ok,
    and_false, or_false, Bool.and_eq_true, Bool.not_eq_true'] at h
  obtain ⟨_, u, hu, ⟨-, value, v, hv, rfl, rfl⟩ |
    ⟨-, ⟨⟨hi, hc⟩, -⟩, _, _, rfl, i, v, hv, rfl, rfl⟩⟩ := h
  · have := hk.trans ((accept_reads hu).trans (hg.assignment hv))
    exact this.ordinary rfl hp
  · have hkey : c.Reads r [.key false c k.node] u := hc ▸ hk.trans (accept_reads hu)
    have hl : k.node.leaves = [] := by
      obtain ⟨⟨shape, pos⟩, computed⟩ := k
      cases shape <;> simp [Node.isIdentifier, Node.shape] at hi
      rfl
    exact ((hkey.rewind (by simp [Part.leaves, hl])).trans (ident_reads hv)).ordinary rfl hp

theorem property_reads (hg : g.Sound) (h : g.property c s = .ok n t) :
    c.Reads s [.ordinary c n] t := by
  simp only [property, bind_eq_ok, peek_eq_ok, pending_eq_ok, ite_eq_ok, check_eq_ok,
    pure_eq_ok] at h
  obtain ⟨_, _, ⟨rfl, rfl⟩, _, u, hu, ⟨-, value, v, hv, rfl, rfl⟩ | ⟨-, m, v, hv, _, _, ⟨rfl, rfl⟩,
    _, _, ⟨rfl, rfl⟩, k, w, hw, _, _, ⟨-, rfl⟩, h⟩⟩ := h
  · exact ((accept_reads hu).trans (hg.assignment hv)).ordinary rfl trivial
  · obtain ⟨hm, hsince⟩ := propertyModifiers_reads hv
    have hm := (accept_reads hu).trans hm
    obtain ⟨hk, hp⟩ := propertyKey_reads hg hw
    rcases h with ⟨-, h⟩ | ⟨-, h⟩
    · exact hm.trans (methodProperty_reads hg hk hp hsince h)
    · exact hm.trans (plainProperty_reads hg hk hp h)

theorem object_reads (hg : g.Sound) (h : g.object c s = .ok n t) : c.Reads s [.ordinary c n] t := by
  simp only [object, bind_eq_ok, pure_eq_ok] at h
  obtain ⟨_, u, hu, ns, v, hv, rfl, rfl⟩ := h
  have hns : c.Reads u (ns.map (.ordinary c)) v := by
    rw [List.map_eq_flatMap]
    exact separated_reads (property_reads hg) hv
  exact ((expect_reads hu).trans hns).ordinary rfl trivial

end Grammar

end JsClass
