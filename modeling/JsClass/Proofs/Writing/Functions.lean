import JsClass.Proofs.Grammar.Statements
import JsClass.Proofs.Writing.Basic

/-! What the rules for functions and for the properties of objects write. -/
namespace JsClass

open JsClass.Parser

/-- Every run of the rule that succeeds writes the node that it returns. -/
def Parser.WritesNode (p : Parser Node) : Prop :=
  ∀ {c s n t}, p c s = .ok n t → c.Writes s [n] t

namespace Grammar

/-- What is needed of the rules that others come back to. -/
structure Faithful (g : Grammar) : Prop where
  statement : g.statement.WritesNode
  assignment : g.assignment.WritesNode
  unary : g.unary.WritesNode
  subscripted : g.subscripted.WritesNode
  atom : g.atom.WritesNode

variable {g : Grammar} {c : Context} {r s t : State} {n : Node} {k : PropertyKey}

theorem commaExpression_writes {turns : Nat} {assignment : Parser Node}
    (ha : assignment.WritesNode) (h : commaExpression turns assignment c s = .ok n t) :
    c.Writes s [n] t := by
  simp only [commaExpression, bind_eq_ok, ite_eq_ok, pure_eq_ok, check_eq_ok] at h
  obtain ⟨first, u, hu, _, _, ⟨-, rfl⟩, ⟨-, rest, v, hv, rfl, rfl⟩ | ⟨-, rfl, rfl⟩⟩ := h
  · have hrest : c.Writes u rest v := by
      rw [← List.flatMap_singleton' rest]
      refine collectFrom_writes ?_ hv
      intro _ s r t hr
      simp only [bind_eq_ok, ite_eq_ok, pure_eq_ok] at hr
      obtain ⟨_, u, hu, ⟨-, x, v, hx, rfl, rfl⟩ | ⟨-, rfl, rfl⟩⟩ := hr
      · exact (accept_writes hu).trans (ha hx)
      · exact accept_writes hu
    exact ((ha hu).trans hrest).done.wrap rfl rfl rfl
  · exact ha hu

theorem expression_writes (hg : g.Faithful) (h : g.expression c s = .ok n t) :
    c.Writes s [n] t :=
  commaExpression_writes hg.assignment h

theorem parenthesized_writes (hg : g.Faithful) (h : g.parenthesized c s = .ok n t) :
    c.Writes s [n] t := by
  simp only [parenthesized, bind_eq_ok, pure_eq_ok] at h
  obtain ⟨_, u, hu, e, v, hv, _, w, hw, rfl, rfl⟩ := h
  exact (expect_writes hu).trans ((expression_writes hg hv).trans (expect_writes hw))

theorem statementsUntil_writes (hg : g.Faithful) {ends : Kind → Bool} {ns : List Node}
    (h : g.statementsUntil ends c s = .ok ns t) : c.Writes s ns t := by
  rw [← List.flatMap_singleton' ns]
  refine collectFrom_writes ?_ h
  intro _ s r t hr
  simp only [bind_eq_ok, peek_eq_ok, ite_eq_ok, pure_eq_ok] at hr
  obtain ⟨_, _, ⟨rfl, rfl⟩, ⟨-, rfl, rfl⟩ | ⟨-, x, u, hx, rfl, rfl⟩⟩ := hr
  · exact .rfl'
  · exact hg.statement hx

theorem block_writes (hg : g.Faithful) (h : g.block c s = .ok n t) : c.Writes s [n] t := by
  simp only [block, bind_eq_ok, pure_eq_ok] at h
  obtain ⟨_, u, hu, ns, v, hv, _, w, hw, rfl, rfl⟩ := h
  exact (expect_takes hu).node ((statementsUntil_writes hg hv).trans (expect_writes hw)) rfl rfl

/-! Functions. -/

theorem closeRest_writes {u : Unit} (h : closeRest c s = .ok u t) : c.Writes s [] t := by
  simp only [closeRest, bind_eq_ok, peek_eq_ok, ite_eq_ok, pure_eq_ok, reject_eq_ok, and_false,
    or_false] at h
  obtain ⟨_, _, ⟨rfl, rfl⟩, hk, _, v, hv, -, rfl⟩ := h
  exact advance_writes (by rw [beq_iff_eq.1 hk]; rfl) hv

theorem initializer?_writes (hg : g.Faithful) {value : Option Node}
    (h : g.initializer? c s = .ok value t) : c.Writes s value.toList t := by
  simp only [initializer?, bind_eq_ok, ite_eq_ok, pure_eq_ok] at h
  obtain ⟨_, u, hu, ⟨-, x, v, hx, rfl, rfl⟩ | ⟨-, rfl, rfl⟩⟩ := h
  · exact (accept_writes hu).trans (hg.assignment hx)
  · exact accept_writes hu

/-- What is written for parameters behind their parenthesis. A rest parameter that comes first comes
alone, and begins with a token of its own. -/
structure WritesParams (c : Context) (s : State) (ns : List Node) (t : State) : Prop where
  writes : c.Writes s ns t
  rest : ∀ n ∈ ns.head?, n.isRest = true → ∃ name u,
    ns = [(c.next s).node (.param name none true)] ∧ c.Takes s (c.next s) u ∧ c.Writes u [name] t

/-- Parameters that begin with an ordinary one. -/
theorem WritesParams.of_ordinary {ns : List Node} (h : c.Writes s (n :: ns) t)
    (hn : n.isRest = false) : WritesParams c s (n :: ns) t := by
  refine ⟨h, fun m hm hrest => ?_⟩
  obtain rfl : n = m := Option.some.inj hm
  exact absurd hrest (by simp [hn])

/-- The parenthesis before parameters leaves nothing behind, so it is free for a problem. -/
theorem params_opens (hg : g.Faithful) {ns : List Node} (h : g.params c s = .ok ns t) :
    ∃ u, c.Takes s (c.next s) u ∧ WritesParams c u ns t := by
  simp only [params, bind_eq_ok] at h
  obtain ⟨x, u, hu, h⟩ := h
  have hopen := expect_takes hu
  obtain rfl := hopen.next
  refine ⟨u, hopen, collectFrom_induction (P := fun _ s ns t => WritesParams c s ns t) ?_ ?_ h⟩
  · intro _ s items t hr
    simp only [bind_eq_ok, ite_eq_ok, pure_eq_ok, peek_eq_ok, check_eq_ok, Turn.stop.injEq,
      reduceCtorEq, false_and, exists_false, and_false, or_false] at hr
    obtain ⟨b, u, hu, ⟨-, rfl, rfl⟩ | ⟨hb, _, _, ⟨rfl, rfl⟩, _, v, hv, rfl, name, w, hw, _, x, hx,
      rfl, rfl⟩⟩ := hr
    · exact ⟨accept_writes hu, by simp⟩
    · obtain rfl : s = u := by
        rcases accept_eq_ok.1 hu with ⟨-, rfl, -⟩ | ⟨-, -, hs⟩
        · exact absurd rfl hb
        · exact hs
      have hparam := (ident_writes hw).trans (closeRest_writes hx)
      exact ⟨(accept_takes hv).node hparam rfl rfl,
        fun _ _ _ => ⟨_, v, rfl, accept_takes hv, hparam⟩⟩
  · intro _ s items _ u rest t hr ih
    simp only [bind_eq_ok, ite_eq_ok, pure_eq_ok, peek_eq_ok, check_eq_ok, Turn.more.injEq,
      reduceCtorEq, false_and, exists_false, and_false, false_or] at hr
    obtain ⟨_, u, hu, -, _, _, ⟨rfl, rfl⟩, _, v, hv, -, name, w, hw, value, x, hx, _, _, ⟨-, rfl⟩,
      hr⟩ := hr
    have hparam : c.Writes u [(c.next u).node (.param name.node value false)] x := by
      have hparts := (accept_writes hv).trans
        ((ident_writes hw).trans (initializer?_writes hg hx).done)
      exact hparts.around (List.cons_ne_nil _ _) rfl rfl rfl rfl
    have hparam := (accept_writes hu).trans hparam
    obtain ⟨-, ⟨rfl, -⟩, rfl⟩ | ⟨-, _, y, hy, ⟨rfl, -⟩, rfl⟩ := hr
    · exact .of_ordinary (hparam.trans ih.writes) rfl
    · exact .of_ordinary ((hparam.trans (expect_writes hy)).trans ih.writes) rfl

theorem params_writes (hg : g.Faithful) {ns : List Node} (h : g.params c s = .ok ns t) :
    c.Writes s ns t := by
  obtain ⟨u, hu, hparams⟩ := params_opens hg h
  exact hu.writes.trans hparams.writes

theorem functionRest_writes (hg : g.Faithful) {isAsync isGenerator : Bool} {ps : List Node}
    {b : Node} (h : g.functionRest isAsync isGenerator c s = .ok (ps, b) t) :
    c.Writes s (ps ++ [b]) t := by
  simp only [functionRest, within_apply, bind_eq_ok, pure_eq_ok, Prod.mk.injEq] at h
  obtain ⟨ps, u, hu, b, v, hv, ⟨rfl, rfl⟩, rfl⟩ := h
  exact (params_writes hg hu).trans (block_writes hg hv)

theorem functionName?_writes {form : FunctionForm} {name : Option Node}
    (h : functionName? form c s = .ok name t) : c.Writes s name.toList t := by
  simp only [functionName?, bind_eq_ok, peek_eq_ok, ite_eq_ok, pure_eq_ok, reject_eq_ok, and_false,
    false_or] at h
  obtain ⟨_, _, ⟨rfl, rfl⟩, ⟨-, i, u, hu, rfl, rfl⟩ | ⟨-, -, rfl, rfl⟩⟩ := h
  · exact ident_writes hu
  · exact .rfl'

theorem function_writes (hg : g.Faithful) {form : FunctionForm} {isAsync : Bool}
    (h : g.function form isAsync c s = .ok n t) : c.Writes s [n] t := by
  simp only [function, bind_eq_ok, context_eq_ok, ite_eq_ok, reject_eq_ok, pure_eq_ok, and_false,
    false_or] at h
  obtain ⟨_, u, hu, isGenerator, v, hv, _, _, ⟨rfl, rfl⟩, -, name, w, hw, ⟨ps, b⟩, x, hx,
    rfl, rfl⟩ := h
  exact (expectKeyword_takes hu).node ((accept_writes hv).trans
    ((functionName?_writes hw).trans (functionRest_writes hg hx))) rfl rfl

theorem arrow_writes (hg : g.Faithful) {ps : List Node} (hp : c.Writes r ps s)
    (h : g.arrow ps (c.next r) c s = .ok n t) : c.Writes r [n] t := by
  simp only [arrow, within_apply, bind_eq_ok, ite_eq_ok, check_eq_ok, pure_eq_ok] at h
  obtain ⟨_, u, hu, _, _, ⟨-, rfl⟩, ⟨-, b, v, hv, rfl, rfl⟩ | ⟨-, b, v, hv, rfl, rfl⟩⟩ := h
  · have hb := block_writes hg hv
    have hparts := hp.trans ((expect_writes hu).trans hb)
    exact hparts.around (by simp) rfl rfl rfl rfl
  · have hb := hg.assignment hv
    have hparts := hp.trans ((expect_writes hu).trans hb)
    exact hparts.around (by simp) rfl rfl rfl rfl

/-! Keys and properties. -/

/-- What the check of an accessor records behind its body is at the parenthesis before the
parameters, or at a rest parameter. -/
theorem WritesParams.check {function : Node} {u v w : State} (accessor : Option Accessor)
    (hparams : WritesParams c u function.params v) (hopen : c.Takes s (c.next s) u)
    (hpos : function.pos = (c.next s).pos) (hb : c.Writes v [n] w)
    (ht : { w with reported := w.reported ++ paramProblems function accessor } = t) :
    c.Records s (function.params ++ [n]) ((function.params ++ [n]).flatMap Node.accessorProblems ++
      paramProblems function accessor) t := by
  subst ht
  have hrest : ∀ m ∈ function.params.head?, m.isRest = true → function.params = [m] := by
    intro m hm hrest
    obtain ⟨name, _, hone, -⟩ := hparams.rest m hm hrest
    rw [hone] at hm ⊢
    rw [← Option.some.inj hm]
  obtain hnone | ⟨d, hd, hone, hd' | ⟨m, hm, hmrest, hd'⟩⟩ := paramProblems_cases accessor hrest
  · rw [hnone, List.append_nil, List.append_nil]
    exact hopen.writes.trans (hparams.writes.trans hb)
  · rw [hone]
    exact hopen.note (hparams.writes.trans hb) (hd'.trans hpos) hd
  · obtain ⟨name, x, hname, hx, hwrites⟩ := hparams.rest m (by simp [hm]) hmrest
    obtain rfl : (c.next u).node (.param name none true) = m := by simpa [hname] using hm
    have hnoted : c.Records u ([(c.next u).node (.param name none true)] ++ [n])
        (([name] ++ [n]).flatMap Node.accessorProblems ++ [d])
        { w with reported := w.reported ++ [d] } :=
      Records.begin (hx.note (hwrites.trans hb) hd' hd) (List.cons_ne_nil _ _) rfl rfl
    have hparam : ((c.next u).node (.param name none true)).accessorProblems =
        name.accessorProblems :=
      (Node.accessorProblems_of_quiet rfl).trans (List.flatMap_singleton _ _)
    rw [hone, hname, List.flatMap_append, List.flatMap_singleton, hparam]
    have htaken := Records.trans hopen.writes hnoted
    exact htaken

/-- A function and the check behind it, which is recorded after all problems inside. -/
theorem method_records (hg : g.Faithful) {isAsync isGenerator : Bool} {accessor : Option Accessor}
    {d : Context} {x : Unit} {u : State} (hu : g.method isAsync isGenerator c s = .ok n u)
    (hv : checkAccessor accessor n d u = .ok x t) :
    c.Records s [n] (n.accessorProblems ++ paramProblems n accessor) t := by
  simp only [method, functionRest, within_apply, bind_eq_ok, peek_eq_ok, pure_eq_ok] at hu
  obtain ⟨_, _, ⟨rfl, rfl⟩, _, _, ⟨ps, v, hps, b, w, hb, rfl, rfl⟩, rfl, rfl⟩ := hu
  obtain ⟨u, hopen, hparams⟩ := params_opens hg hps
  have hcheck := WritesParams.check accessor hparams hopen rfl (block_writes hg hb)
    (checkAccessor_eq_ok.1 hv)
  rw [Node.accessorProblems_of_quiet rfl]
  exact hcheck.around (by simp) rfl rfl rfl

theorem propertyKey_writes (hg : g.Faithful) (h : g.propertyKey c s = .ok k t) :
    c.Writes s [k.node] t := by
  simp only [propertyKey, bind_eq_ok, peek_eq_ok] at h
  obtain ⟨_, _, ⟨rfl, rfl⟩, h⟩ := h
  cases hk : (c.next s).kind
  case number raw =>
    simp only [hk, bind_eq_ok, advance_eq_ok, numberLiteral_eq_ok, pure_eq_ok] at h
    obtain ⟨_, _, ⟨-, rfl⟩, _, _, ⟨value, -, rfl, rfl⟩, rfl, rfl⟩ := h
    exact .leaf (by rw [hk]; rfl) (by rw [hk]; rfl)
  case string value =>
    simp only [hk, bind_eq_ok, advance_eq_ok, pure_eq_ok] at h
    obtain ⟨_, _, ⟨-, rfl⟩, rfl, rfl⟩ := h
    exact .leaf (by rw [hk]; rfl) (by rw [hk]; rfl)
  case punct p =>
    by_cases hp : p = .lbracket
    · subst hp
      simp only [hk, bind_eq_ok, pure_eq_ok] at h
      obtain ⟨_, u, hu, key, v, hv, _, w, hw, rfl, rfl⟩ := h
      have hu : c.Writes s [] u := advance_writes (by rw [hk]; rfl) hu
      exact hu.trans ((hg.assignment hv).trans (expect_writes hw))
    · simp [hk, hp] at h
      obtain ⟨i, hi, rfl⟩ := h
      exact propertyWord_writes hi
  all_goals
    simp only [hk, bind_eq_ok, pure_eq_ok] at h
    obtain ⟨i, u, hi, rfl, rfl⟩ := h
    exact propertyWord_writes hi

theorem asyncStar_writes {b : Bool} (h : asyncStar c s = .ok b t) : c.Writes s [] t := by
  simp only [asyncStar, bind_eq_ok, context_eq_ok, ite_eq_ok, pure_eq_ok] at h
  obtain ⟨_, _, ⟨rfl, rfl⟩, ⟨-, h⟩ | ⟨-, -, rfl⟩⟩ := h
  · exact accept_writes h
  · exact .rfl'

/-- Where there is no accessor, no word is taken for one. -/
theorem propertyAccessor?_writes {a : Option Accessor} (h : propertyAccessor? c s = .ok a t) :
    c.Writes s [] t ∧ (a = none → s = t) := by
  simp only [propertyAccessor?, bind_eq_ok, peekAt_eq_ok, ite_eq_ok, pure_eq_ok] at h
  obtain ⟨_, _, ⟨rfl, rfl⟩, ⟨-, -, rfl⟩ | ⟨-, _, u, hu, ⟨-, rfl, rfl⟩ |
    ⟨hu', _, v, hv, ⟨-, rfl, rfl⟩ | ⟨hv', rfl, rfl⟩⟩⟩⟩ := h
  · exact ⟨.rfl', fun _ => rfl⟩
  · exact ⟨acceptKind_writes rfl hu, by simp⟩
  · exact ⟨(acceptKind_writes rfl hu).trans (acceptKind_writes rfl hv), by simp⟩
  · rcases acceptKind_eq_ok.1 hu with ⟨-, rfl, -⟩ | ⟨-, -, rfl⟩
    · exact absurd rfl hu'
    · rcases acceptKind_eq_ok.1 hv with ⟨-, rfl, -⟩ | ⟨-, -, rfl⟩
      · exact absurd rfl hv'
      · exact ⟨.rfl', fun _ => rfl⟩

theorem propertyModifiers_writes {m : Modifiers} (h : propertyModifiers c s = .ok m t) :
    c.Writes s [] t ∧ (m.areAbsent = true → s = t) := by
  simp only [propertyModifiers, bind_eq_ok, context_eq_ok, peek_eq_ok, peekAt_eq_ok, ite_eq_ok,
    pure_eq_ok] at h
  obtain ⟨_, _, ⟨rfl, rfl⟩, _, _, ⟨rfl, rfl⟩, _, _, ⟨rfl, rfl⟩,
    ⟨hk, _, u, hu, isGenerator, v, hv, rfl, rfl⟩ |
    ⟨-, b, u, hu, ⟨-, rfl, rfl⟩ | ⟨hb, a, v, hv, rfl, rfl⟩⟩⟩ := h
  · simp only [Bool.and_eq_true, decide_eq_true_eq, beq_iff_eq] at hk
    exact ⟨(advance_writes (by rw [hk.1.1.2]; rfl) hu).trans (asyncStar_writes hv), by
      simp [Modifiers.areAbsent]⟩
  · exact ⟨accept_writes hu, by simp [Modifiers.areAbsent]⟩
  · obtain ⟨hwrites, habsent⟩ := propertyAccessor?_writes hv
    refine ⟨(accept_writes hu).trans hwrites, fun ha => ?_⟩
    rcases accept_eq_ok.1 hu with ⟨-, rfl, -⟩ | ⟨-, -, rfl⟩
    · exact absurd rfl hb
    · exact habsent (Modifiers.accessor_of_areAbsent _ ha)

theorem methodProperty_writes (hg : g.Faithful) {m : Modifiers} (hk : c.Writes r [k.node] s)
    (h : g.methodProperty (c.next r) k m c s = .ok n t) : c.Writes r [n] t := by
  simp only [methodProperty, bind_eq_ok, pure_eq_ok] at h
  obtain ⟨value, u, hu, _, v, hv, rfl, rfl⟩ := h
  refine hk.member (?_ : c.Records s [value] (value.accessorProblems ++ _) v) rfl rfl rfl
  have hvalue := method_records hg hu hv
  rcases ha : m.accessor with _ | _ | _ <;> rwa [ha] at hvalue

/-- The name of a property is read as its key. -/
theorem propertyKey_word {word : String} (hk : (c.next s).kind = .name word)
    (h : g.propertyKey c s = .ok k t) :
    k.node = ⟨.identifier word, (c.next s).pos⟩ ∧ t = { s.skip with
      reported := s.reported ++ propertyProblems c ⟨word, (c.next s).pos⟩ } := by
  simp only [propertyKey, bind_eq_ok, peek_eq_ok] at h
  obtain ⟨_, _, ⟨rfl, rfl⟩, h⟩ := h
  simp only [hk, bind_eq_ok, pure_eq_ok] at h
  obtain ⟨i, u, hi, rfl, rfl⟩ := h
  obtain rfl := propertyWord_name hk hi
  obtain ⟨v, hv, rfl⟩ := propertyWord_records hi
  obtain ⟨_, -, -, rfl⟩ := anyWord_eq_ok.1 hv
  exact ⟨rfl, rfl⟩

/-- A name that is key and value at once is read twice, and both nodes stand at its one token. -/
theorem plainProperty_writes (hg : g.Faithful) (hk : g.propertyKey c r = .ok k s)
    (h : g.plainProperty (c.next r) (c.next r) r.pending k c s = .ok n t) : c.Writes r [n] t := by
  simp only [plainProperty, bind_eq_ok, ite_eq_ok, restore_eq_ok, pure_eq_ok, unexpectedNext_eq_ok,
    and_false, or_false, Bool.and_eq_true] at h
  obtain ⟨_, u, hu, ⟨-, value, v, hv, rfl, rfl⟩ |
    ⟨hb, ⟨-, hname⟩, _, _, rfl, i, v, hv, rfl, rfl⟩⟩ := h
  · have hparts := (propertyKey_writes hg hk).trans
      ((accept_writes hu).trans (hg.assignment hv))
    exact hparts.around (List.cons_ne_nil _ _) rfl rfl rfl rfl
  · cases hword : (c.next r).kind <;> simp only [hword, Kind.isName, Bool.false_eq_true] at hname
    case name word =>
      obtain rfl : s = u := by
        rcases accept_eq_ok.1 hu with ⟨-, rfl, -⟩ | ⟨-, -, hs⟩
        · exact absurd rfl hb
        · exact hs
      obtain ⟨hkey, rfl⟩ := propertyKey_word hword hk
      obtain ⟨x, hx, rfl⟩ := ident_records hv
      obtain ⟨w, hw, rfl, rfl⟩ := anyWord_eq_ok.1 hx
      have hsame : (c.next r).kind.word? = some w := hw
      rw [hword] at hsame
      cases hsame
      have hproblems := nameProblems_cases c ⟨word, (c.next r).pos⟩
      rw [hkey]
      refine .of_records (.single (.shorthand hword hproblems) ?_ rfl ?_) rfl
      · rw [hword]
        exact Kind.noConfusion
      · exact List.append_assoc _ _ _

theorem property_writes (hg : g.Faithful) (h : g.property c s = .ok n t) : c.Writes s [n] t := by
  simp only [property, bind_eq_ok, peek_eq_ok, pending_eq_ok, ite_eq_ok, check_eq_ok,
    pure_eq_ok] at h
  obtain ⟨_, _, ⟨rfl, rfl⟩, b, u, hu, ⟨rfl, value, v, hv, rfl, rfl⟩ | ⟨hb, m, v, hv, _, _,
    ⟨rfl, rfl⟩, _, _, ⟨rfl, rfl⟩, k, w, hw, _, _, ⟨-, rfl⟩, h⟩⟩ := h
  · exact (accept_takes hu).node (hg.assignment hv) rfl rfl
  · obtain rfl : s = u := by
      rcases accept_eq_ok.1 hu with ⟨-, rfl, -⟩ | ⟨-, -, hs⟩
      · exact absurd rfl hb
      · exact hs
    obtain ⟨hm, habsent⟩ := propertyModifiers_writes hv
    rcases h with ⟨-, h⟩ | ⟨hplain, h⟩
    · exact methodProperty_writes hg (hm.trans (propertyKey_writes hg hw)) h
    · simp only [Bool.or_eq_true, Bool.not_eq_true', not_or, Bool.not_eq_false] at hplain
      obtain rfl := habsent hplain.1
      exact plainProperty_writes hg hw h

theorem object_writes (hg : g.Faithful) (h : g.object c s = .ok n t) : c.Writes s [n] t := by
  simp only [object, bind_eq_ok, pure_eq_ok] at h
  obtain ⟨_, u, hu, ns, v, hv, rfl, rfl⟩ := h
  have hns := separated_writes (property_writes hg) hv
  rw [List.flatMap_singleton'] at hns
  exact (expect_takes hu).node hns.done rfl rfl

end Grammar

end JsClass
