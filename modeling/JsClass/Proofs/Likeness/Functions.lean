import JsClass.Proofs.Likeness.Basic

/-! The rules for functions and for the properties of objects. -/
namespace JsClass.Likeness

open JsClass.Grammar

variable {m : Matching} {L : Likeness m} {g g' : Grammar}

/-- Grammars whose rules read alike. -/
structure Grammars (L : Likeness m) (g g' : Grammar) : Prop where
  turns : g.turns = g'.turns
  statement : L.nodes g.statement g'.statement
  assignment : L.nodes g.assignment g'.assignment
  unary : L.nodes g.unary g'.unary
  subscripted : L.nodes g.subscripted g'.subscripted
  atom : L.nodes g.atom g'.atom

theorem commaExpression {p p' : Parser Node} (hp : L.nodes p p') (turns : Nat) :
    L.nodes (Grammar.commaExpression turns p) (Grammar.commaExpression turns p') := by
  refine L.bind hp fun _ _ hfirst => choose (check _) ?_ (L.pure hfirst)
  refine L.bind (collect (V := Node.Alike m) ?_ turns) fun _ _ hrest =>
    L.pure (hfirst.wrap (.sequence (.cons hfirst hrest)))
  exact choose (accept _) (L.bind hp fun _ _ h => L.pure (.more (.cons h .nil) rfl))
    (L.pure (.stop .nil))

theorem expression (hg : L.Grammars g g') : L.nodes g.expression g'.expression := by
  unfold Grammar.expression
  rw [← hg.turns]
  exact commaExpression hg.assignment g.turns

theorem parenthesized (hg : L.Grammars g g') : L.nodes g.parenthesized g'.parenthesized :=
  step (expect _) fun _ _ => L.bind (expression hg) fun _ _ he => step (expect _) fun _ _ =>
    L.pure he

theorem statementsUntil (hg : L.Grammars g g') {ends : Kind → Bool}
    (hends : ∀ w w', ends (.privateName w) = ends (.privateName w')) :
    L.runs (List.Forall₂ (Node.Alike m)) (g.statementsUntil ends) (g'.statementsUntil ends) := by
  unfold Grammar.statementsUntil
  rw [← hg.turns]
  refine collect (L.bind L.peek fun t t' ht => ite ?_ (L.pure (.stop .nil)) ?_) g.turns
  · rw [ht.kind.congr ends hends, ht.is rfl]
  · exact L.bind hg.statement fun _ _ hn => L.pure (.more (.cons hn .nil) rfl)

theorem block (hg : L.Grammars g g') : L.nodes g.block g'.block :=
  L.bind (expect _) fun _ _ ht => L.bind (statementsUntil hg fun _ _ => rfl) fun _ _ hs =>
    step (expect _) fun _ _ => L.pure (ht.node (.block hs))

/-! Functions. -/

theorem closeRest : L.steps Grammar.closeRest Grammar.closeRest :=
  L.bind L.peek fun _ _ ht => ite (ht.is rfl) (step L.advance fun _ _ => L.pure trivial)
    (L.reject (.restNotLast ht))

theorem initializer? (hg : L.Grammars g g') :
    L.runs (Option.Rel (Node.Alike m)) g.initializer? g'.initializer? :=
  choose (accept _) (L.bind hg.assignment fun _ _ h => L.pure (.some h)) (L.pure .none)

theorem params (hg : L.Grammars g g') :
    L.runs (List.Forall₂ (Node.Alike m)) g.params g'.params := by
  unfold Grammar.params
  rw [← hg.turns]
  refine step (expect _) fun _ _ => collect (choose (accept _) (L.pure (.stop .nil))
    (L.bind L.peek fun t t' ht => choose (accept _) ?_ ?_)) g.turns
  · exact L.bind ident fun _ _ hname => step closeRest fun _ _ =>
      L.pure (.stop (.cons (ht.node (.param hname.node .none)) .nil))
  · refine L.bind ident fun _ _ hname => L.bind (initializer? hg) fun _ _ hdefault => ?_
    have hparam : (t.node (.param _ _ false)).Alike m (t'.node (.param _ _ false)) :=
      ht.node (.param hname.node hdefault)
    exact choose (check _) (L.pure (.more (.cons hparam .nil) rfl))
      (step (expect _) fun _ _ => L.pure (.more (.cons hparam .nil) rfl))

/-- Alike parameters and bodies. -/
abbrev Rests (m : Matching) (r r' : List Node × Node) : Prop :=
  List.Forall₂ (Node.Alike m) r.1 r'.1 ∧ Node.Alike m r.2 r'.2

theorem functionRest (hg : L.Grammars g g') (isAsync isGenerator : Bool) :
    L.runs (Rests m) (g.functionRest isAsync isGenerator) (g'.functionRest isAsync isGenerator) :=
  L.within (.function isAsync isGenerator) (L.bind (params hg) fun _ _ hparams =>
    L.bind (block hg) fun _ _ hbody => L.pure ⟨hparams, hbody⟩)

theorem functionName? (form : FunctionForm) :
    L.runs (Option.Rel (Node.Alike m)) (Grammar.functionName? form)
      (Grammar.functionName? form) := by
  refine L.bind L.peek fun t t' ht => ite ?_ (L.bind ident fun _ _ h => L.pure (.some h.node))
    (ite rfl (L.reject (.same rfl rfl ht.pos)) (L.pure .none))
  exact ht.kind.congr (fun k => k.isName || form == .declaration && k.word?.isSome) fun _ _ => rfl

theorem function (hg : L.Grammars g g') (form : FunctionForm) (isAsync : Bool) :
    L.nodes (g.function form isAsync) (g'.function form isAsync) := by
  refine L.bind (expectKeyword _) fun t t' ht => L.bind (accept _) ?_
  rintro isGenerator _ rfl
  refine L.bind L.context fun c c' hc => ite (by rw [hc.edition])
    (L.reject (.same rfl rfl ht.pos)) (L.bind (functionName? form) fun _ _ hname =>
      L.bind (functionRest hg isAsync isGenerator) ?_)
  rintro ⟨params, body⟩ ⟨params', body'⟩ ⟨hparams, hbody⟩
  exact L.pure (ht.node (.function hname hparams hbody))

theorem method (hg : L.Grammars g g') (isAsync isGenerator : Bool) :
    L.nodes (g.method isAsync isGenerator) (g'.method isAsync isGenerator) := by
  refine L.bind L.peek fun t t' ht => L.bind (functionRest hg isAsync isGenerator) ?_
  rintro ⟨params, body⟩ ⟨params', body'⟩ ⟨hparams, hbody⟩
  exact L.pure (ht.node (.function .none hparams hbody))

theorem isAsyncFunction : L.same Grammar.isAsyncFunction Grammar.isAsyncFunction :=
  L.bind L.context fun _ _ hc => L.bind L.peek fun _ _ ht => L.bind (L.peekAt 1) fun _ _ hnext =>
    L.pure (by rw [hc.edition, ht.is rfl, hnext.is rfl, hnext.newline])

/-- The bracket that closes the open ones stands at the same place. -/
theorem afterPartner {ts ts' : List Token} (h : List.Forall₂ (Token.Alike m) ts ts') (depth : Nat) :
    List.Forall₂ (Token.Alike m) (Grammar.afterPartner depth ts)
      (Grammar.afterPartner depth ts') := by
  induction h generalizing depth with
  | nil => exact .nil
  | @cons t t' ts ts' ht hts ih =>
    have hopen : isOpening t.kind = isOpening t'.kind := ht.kind.congr isOpening fun _ _ => rfl
    have hclose : isClosing t.kind = isClosing t'.kind := ht.kind.congr isClosing fun _ _ => rfl
    simp only [Grammar.afterPartner, ← hopen, ← hclose]
    split
    · exact ih _
    · split
      · split
        · exact hts
        · exact ih _
      · exact ih _

theorem isArrowParams : L.same Grammar.isArrowParams Grammar.isArrowParams := by
  refine L.bind L.pending fun ts ts' hts => L.bind L.context fun c c' hc => ?_
  have hnext : ((Grammar.afterPartner 0 ts).headD c.finish).Alike m
      ((Grammar.afterPartner 0 ts').headD c'.finish) := by
    have hrest := afterPartner (L.streams_alike hts) 0
    generalize Grammar.afterPartner 0 ts = rest at hrest ⊢
    generalize Grammar.afterPartner 0 ts' = rest' at hrest ⊢
    cases hrest with
    | nil => exact hc.finish
    | cons h _ => exact h
  exact L.pure (by rw [hnext.is rfl, hnext.newline])

theorem arrow (hg : L.Grammars g g') {ps ps' : List Node}
    (hps : List.Forall₂ (Node.Alike m) ps ps') {t t' : Token} (ht : t.Alike m t') :
    L.nodes (g.arrow ps t) (g'.arrow ps' t') :=
  step (expect _) fun _ _ => L.within .arrow (choose (check _)
    (L.bind (block hg) fun _ _ h => L.pure (ht.node (.arrow hps h)))
    (L.bind hg.assignment fun _ _ h => L.pure (ht.node (.arrow hps h))))

/-! Keys and properties. -/

theorem numberLiteral {t t' : Token} (ht : t.Alike m t') (raw : String) :
    L.nodes (Grammar.numberLiteral t raw) (Grammar.numberLiteral t' raw) := by
  unfold Grammar.numberLiteral
  split
  · exact L.pure (ht.node .number)
  · exact L.unreadable

theorem checkAccessor (accessor : Option Accessor) {n n' : Node} (hn : n.Alike m n') :
    L.steps (Grammar.checkAccessor accessor n) (Grammar.checkAccessor accessor n') := by
  unfold Grammar.checkAccessor
  have hparams := hn.params
  generalize n.params = ps at hparams ⊢
  generalize n'.params = ps' at hparams ⊢
  rcases accessor with _ | _ | _
  · exact L.pure trivial
  · cases hparams with
    | nil => exact L.pure trivial
    | cons => exact L.report rfl hn.pos
  · cases hparams with
    | nil => exact step (L.report rfl hn.pos) fun _ _ => L.pure trivial
    | cons hfirst hrest =>
      have hlength := (List.Forall₂.cons hfirst hrest).length_eq
      refine ite (by rw [hlength]) (step (L.report rfl hn.pos) fun _ _ => ?_) ?_
      · exact ite hfirst.isRest (L.report rfl hfirst.pos) (L.pure trivial)
      · exact ite hfirst.isRest (L.report rfl hfirst.pos) (L.pure trivial)

theorem propertyKey (hg : L.Grammars g g') :
    L.runs (PropertyKey.Alike m) g.propertyKey g'.propertyKey := by
  refine L.bind L.peek fun t t' ht => ?_
  have hword : L.runs (PropertyKey.Alike m)
      (Parser.propertyWord >>= fun i => Pure.pure ⟨i.node, false⟩)
      (Parser.propertyWord >>= fun i => Pure.pure ⟨i.node, false⟩) :=
    L.bind propertyWord fun _ _ hi => L.pure ⟨hi.node, rfl⟩
  rcases ht.kind_cases with ⟨hk, hnot⟩ | ⟨w, w', hw, hw', -⟩
  · rw [← hk]
    split
    · exact step L.advance fun _ _ => L.bind hg.assignment fun _ _ h => step (expect _) fun _ _ =>
        L.pure ⟨h, rfl⟩
    · exact step L.advance fun _ _ => L.bind (numberLiteral ht _) fun _ _ h => L.pure ⟨h, rfl⟩
    · exact step L.advance fun _ _ => L.pure ⟨ht.node .string, rfl⟩
    · exact hword
  · simp only [hw, hw']
    exact hword

theorem asyncStar : L.same Grammar.asyncStar Grammar.asyncStar :=
  L.bind L.context fun _ _ hc => ite_iff (by rw [hc.edition]) (accept _) done

theorem propertyAccessor? : L.same Grammar.propertyAccessor? Grammar.propertyAccessor? :=
  L.bind (L.peekAt 1) fun _ _ ht => ite (ht.kind.congr endsPropertyKey fun _ _ => rfl) done
    (choose (acceptKind rfl) done (choose (acceptKind rfl) done done))

theorem propertyModifiers : L.same Grammar.propertyModifiers Grammar.propertyModifiers := by
  refine L.bind L.context fun c c' hc => L.bind L.peek fun t t' ht => L.bind (L.peekAt 1)
    fun u u' hu => ite ?_ (step L.advance fun _ _ => L.bind asyncStar ?_)
      (choose (accept _) done (L.bind propertyAccessor? ?_))
  · rw [hc.edition, ht.is rfl, hu.newline, hu.kind.congr endsPropertyKey fun _ _ => rfl]
  · rintro star _ rfl
    exact done
  · rintro accessor _ rfl
    exact done

theorem plainProperty (hg : L.Grammars g g') {start start' x x' : Token} {ts ts' : List Token}
    {k k' : PropertyKey} (hstart : start.Alike m start') (hx : x.Alike m x')
    (hts : L.streams ts ts') (hk : k.Alike m k') :
    L.nodes (g.plainProperty start x ts k) (g'.plainProperty start' x' ts' k') := by
  refine choose (accept _) (L.bind hg.assignment fun _ _ hvalue => ?_) (ite ?_ ?_ unexpectedNext)
  · rw [← hk.computed]
    exact L.pure (hstart.node (.property hk.node hvalue))
  · rw [hk.node.isIdentifier, hk.computed, hx.kind.congr Kind.isName fun _ _ => rfl]
  · exact step (L.restore hts) fun _ _ => L.bind ident fun _ _ hvalue =>
      L.pure (hstart.node (.property hk.node hvalue.node))

theorem methodProperty (hg : L.Grammars g g') {start start' : Token} {k k' : PropertyKey}
    (hstart : start.Alike m start') (hk : k.Alike m k') (ms : Modifiers) :
    L.nodes (g.methodProperty start k ms) (g'.methodProperty start' k' ms) := by
  refine L.bind (method hg _ _) fun _ _ hvalue => step (checkAccessor _ hvalue) fun _ _ => ?_
  rw [← hk.computed]
  exact L.pure (hstart.node (.property hk.node hvalue))

theorem property (hg : L.Grammars g g') : L.nodes g.property g'.property := by
  refine L.bind L.peek fun start start' hstart => choose (accept _)
    (L.bind hg.assignment fun _ _ h => L.pure (hstart.node (.spread h)))
    (L.bind propertyModifiers ?_)
  rintro ms _ rfl
  refine L.bind L.peek fun x x' hx => L.bind L.pending fun ts ts' hts =>
    L.bind (propertyKey hg) fun k k' hk => L.bind (check _) ?_
  rintro hasParams _ rfl
  exact ite rfl (methodProperty hg hstart hk ms) (plainProperty hg hstart hx hts hk)

theorem object (hg : L.Grammars g g') : L.nodes g.object g'.object := by
  unfold Grammar.object
  rw [← hg.turns]
  exact L.bind (expect _) fun _ _ ht => L.bind (separated _ _ (property hg)) fun _ _ hps =>
    L.pure (ht.node (.object hps))

end JsClass.Likeness
