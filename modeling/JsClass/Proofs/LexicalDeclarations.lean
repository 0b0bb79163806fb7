import JsClass.Parse
import JsClass.Proofs.Grammar.Statements
import JsClass.Proofs.Grammar.Super

/-!
Which declarations of variables a program may have. They are built in two places, and only one of
them looks at the names and at the values that are missing: the head of a loop over keys or values
takes any single name.
-/
namespace JsClass

variable {n x : Node} {ns ms : List Node} {s : Shape Node} {pos : Position}

def Shape.isVarDecl : Shape Node → Bool
  | .varDecl .. => true
  | _ => false

namespace Node

/-- A declarator that may stand in a declaration of the kind: `let` does not name what `let` or
`const` declare, and a constant has a value. -/
def IsLegalDeclarator (kind : VarKind) (d : Node) : Prop :=
  ∃ (name : Ident) (init : Option Node), d.shape = .declarator name.node init ∧
    (kind ≠ .var → name.name ≠ "let") ∧ (kind = .const → init.isSome)

/-- If the node is a declaration of variables, all its declarators may stand in it. -/
def IsLegalDeclaration (n : Node) : Prop :=
  ∀ kind declarators, n.shape = .varDecl kind declarators →
    ∀ d ∈ declarators, d.IsLegalDeclarator kind

/-- The node declares one name without a value, for a loop over keys or values. -/
def IsLoopVariable (loop n : Node) : Prop :=
  (∃ right body of, loop.shape = .forIn n right body of) ∧
    ∃ kind, ∃ name : Ident, n.shape = .varDecl kind [⟨.declarator name.node none, name.pos⟩]

/-- All declarations below the node are legal, those of loop variables apart. -/
def InnerLegal (n : Node) : Prop :=
  ∀ p ∈ n.walk, ∀ x ∈ p.children, x.IsLegalDeclaration ∨ p.IsLoopVariable x

/-- The node and all below it declare legally. -/
def DeclaresLegally (n : Node) : Prop := n.IsLegalDeclaration ∧ n.InnerLegal

theorem innerLegal_iff : n.InnerLegal ↔
    ∀ x ∈ n.children, (x.IsLegalDeclaration ∨ n.IsLoopVariable x) ∧ x.InnerLegal := by
  simp only [InnerLegal, walk_eq n, List.mem_cons, List.mem_flatMap]
  constructor
  · intro h x hx
    exact ⟨h n (Or.inl rfl) x hx, fun p hp => h p (Or.inr ⟨x, hx, hp⟩)⟩
  · rintro h p (rfl | ⟨x, hx, hp⟩)
    · exact fun x hx => (h x hx).1
    · exact (h x hx).2 p hp

theorem DeclaresLegally.of_children (hn : n.IsLegalDeclaration)
    (h : ∀ x ∈ n.children, x.DeclaresLegally) : n.DeclaresLegally :=
  ⟨hn, innerLegal_iff.2 fun x hx => ⟨Or.inl (h x hx).1, (h x hx).2⟩⟩

theorem isLegalDeclaration_of_other (hn : n.shape.isVarDecl = false) : n.IsLegalDeclaration := by
  intro kind declarators hs
  rw [hs] at hn
  cases hn

/-- A node that is no declaration takes its legality from its children. -/
theorem DeclaresLegally.mk (hs : s.isVarDecl = false) (h : ∀ x ∈ s.children, x.DeclaresLegally) :
    (mk s pos).DeclaresLegally :=
  .of_children (isLegalDeclaration_of_other hs) h

end Node

-- The children of a node that is built are read off its shape.
attribute [local simp] Shape.children Shape.fields Field.children Field.word Field.ofKind or_imp
  forall_and

@[simp] theorem Ident.node_declaresLegally (i : Ident) : i.node.DeclaresLegally :=
  .mk rfl (by simp)

@[simp] theorem Ident.param_declaresLegally (i : Ident) : i.param.DeclaresLegally :=
  .mk rfl (by simp)

/-- A rule whose nodes declare legally. -/
abbrev Parser.Legal (p : Parser Node) : Prop := p.Returns Node.DeclaresLegally

/-- A rule whose nodes, if it finds any, declare legally. -/
abbrev Parser.OptionLegal (p : Parser (Option Node)) : Prop :=
  p.Returns fun r => ∀ n ∈ r, n.DeclaresLegally

/-- A rule all whose nodes declare legally. -/
abbrev Parser.ListLegal (p : Parser (List Node)) : Prop :=
  p.Returns fun ns => ∀ n ∈ ns, n.DeclaresLegally

/-- The rules to come back to build legal declarations only. -/
structure Grammar.DeclaresLegally (g : Grammar) : Prop where
  statement : g.statement.Legal
  assignment : g.assignment.Legal
  unary : g.unary.Legal
  subscripted : g.subscripted.Legal
  atom : g.atom.Legal

namespace Parser.Returns

variable {α σ : Type} {P : α → Prop}

theorem ite_of {b : Prop} [Decidable b] {p q : Parser α} (hp : b → p.Returns P)
    (hq : ¬ b → q.Returns P) : Returns P (if b then p else q) := by
  split
  · next h => exact hp h
  · next h => exact hq h

/-- What holds of the items of every turn holds of all items. -/
theorem collectFrom {turn : σ → Parser (Turn σ α)}
    (h : ∀ y, (turn y).Returns fun r => ∀ a ∈ r.items, P a) (turns : Nat) (y : σ) :
    (Parser.collectFrom turn turns y).Returns fun items => ∀ a ∈ items, P a := by
  intro c s items t hitems
  refine collectFrom_induction (P := fun _ _ items _ => ∀ a ∈ items, P a)
    (fun hr => (h _).of_ok hr) ?_ hitems
  intro _ _ found _ _ rest _ hr ih a ha
  exact (List.mem_append.1 ha).elim ((h _).of_ok hr a) (ih a)

theorem collect {turn : Parser (Turn Unit α)} (h : turn.Returns fun r => ∀ a ∈ r.items, P a)
    (turns : Nat) : (Parser.collect turns turn).Returns fun items => ∀ a ∈ items, P a :=
  collectFrom (fun _ => h) turns ()

theorem separated {item : Parser α} (h : item.Returns P) (turns : Nat) (close : Punct) :
    (Parser.separated turns close item).Returns fun items => ∀ a ∈ items, P a := by
  refine .bind fun _ => .ite (.pure (by simp)) (.bind_of h fun first hfirst => ?_)
  have hturn : (do
      if ← accept close then return .stop []
      else
        let _ ← expect .comma
        if ← accept close then return .stop []
        else return .more [← item] () : Parser (Turn Unit α)).Returns
      fun r => ∀ a ∈ r.items, P a :=
    .bind fun _ => .ite (.pure (by simp [Turn.items])) (.bind fun _ => .bind fun _ =>
      .ite (.pure (by simp [Turn.items])) (.bind_of h fun a ha => .pure (by simpa [Turn.items])))
  exact .bind_of (collect hturn turns) fun rest hrest => .pure (by simpa using ⟨hfirst, hrest⟩)

theorem unexpected (t : Token) : Returns P (Parser.unexpected t) := by
  intro c s a u h
  rw [unexpected_eq_ok] at h
  exact h.elim

theorem unexpectedNext : Returns P (Parser.unexpectedNext : Parser α) :=
  .bind fun _ => unexpected _

end Parser.Returns

namespace Grammar

open JsClass.Parser

variable {g : Grammar}

/-! Functions. -/

theorem commaExpression_legal {turns : Nat} {assignment : Parser Node}
    (ha : assignment.Legal) : (commaExpression turns assignment).Legal := by
  have hturn : (do
      if ← accept .comma then return .more [← assignment] ()
      else return .stop [] : Parser (Turn Unit Node)).Returns
      fun r => ∀ n ∈ r.items, n.DeclaresLegally :=
    .bind fun _ => .ite (.bind_of ha fun n hn => .pure (by simpa [Turn.items]))
      (.pure (by simp [Turn.items]))
  refine .bind_of ha fun first hfirst => .bind fun _ => .ite ?_ (.pure hfirst)
  exact .bind_of (.collect hturn turns) fun rest hrest =>
    .pure (.mk rfl (by simpa using ⟨hfirst, hrest⟩))

theorem expression_legal (hg : g.DeclaresLegally) : g.expression.Legal :=
  commaExpression_legal hg.assignment

theorem parenthesized_legal (hg : g.DeclaresLegally) : g.parenthesized.Legal :=
  .bind fun _ => .bind_of (expression_legal hg) fun _ he => .bind fun _ => .pure he

theorem statementsUntil_legal (hg : g.DeclaresLegally) (ends : Kind → Bool) :
    (g.statementsUntil ends).ListLegal := by
  refine .collect (.bind fun _ => .ite (.pure (by simp [Turn.items])) ?_) _
  exact .bind_of hg.statement fun n hn => .pure (by simpa [Turn.items])

theorem block_legal (hg : g.DeclaresLegally) : g.block.Legal :=
  .bind fun _ => .bind_of (statementsUntil_legal hg _) fun _ hns => .bind fun _ =>
    .pure (.mk rfl (by simpa using hns))

theorem initializer?_legal (hg : g.DeclaresLegally) : g.initializer?.OptionLegal :=
  .bind fun _ => .ite (.bind_of hg.assignment fun _ hn => .pure (by simpa))
    (.pure (by simp))

theorem params_legal (hg : g.DeclaresLegally) : g.params.ListLegal := by
  refine .bind fun _ => .collect (.bind fun _ => .ite (.pure (by simp [Turn.items])) ?_) _
  refine .bind fun t => .bind fun _ => .ite ?_ ?_
  · refine .bind fun name => .bind fun _ => .pure ?_
    have hparam : (t.node (.param name.node none true)).DeclaresLegally := .mk rfl (by simp)
    simpa [Turn.items] using hparam
  · refine .bind fun name => .bind_of (initializer?_legal hg) fun default hdefault => ?_
    have hparam : (t.node (.param name.node default false)).DeclaresLegally :=
      .mk rfl (by simpa using hdefault)
    refine .bind fun _ => .ite (.pure ?_) (.bind fun _ => .pure ?_)
    all_goals simpa [Turn.items] using hparam

theorem functionRest_legal (hg : g.DeclaresLegally) (isAsync isGenerator : Bool) :
    (g.functionRest isAsync isGenerator).Returns fun r =>
      (∀ n ∈ r.1, n.DeclaresLegally) ∧ r.2.DeclaresLegally :=
  .within (.bind_of (params_legal hg) fun _ hparams =>
    .bind_of (block_legal hg) fun _ hbody => .pure ⟨hparams, hbody⟩)

theorem functionName?_legal (form : FunctionForm) : (functionName? form).OptionLegal :=
  .bind fun _ => .ite (.bind fun _ => .pure (by simp)) (.ite (.reject _ _) (.pure (by simp)))

theorem function_legal (hg : g.DeclaresLegally) (form : FunctionForm) (isAsync : Bool) :
    (g.function form isAsync).Legal := by
  refine .bind fun t => .bind fun isGenerator => .bind fun c => .ite (.reject _ _) ?_
  refine .bind_of (functionName?_legal form) fun name hname =>
    .bind_of (functionRest_legal hg isAsync isGenerator) fun r hr => .pure ?_
  exact .mk rfl (by simpa using ⟨hname, hr⟩)

theorem method_legal (hg : g.DeclaresLegally) (isAsync isGenerator : Bool) :
    (g.method isAsync isGenerator).Legal :=
  .bind fun _ => .bind_of (functionRest_legal hg isAsync isGenerator) fun _ hr =>
    .pure (.mk rfl (by simpa using hr))

theorem arrow_legal (hg : g.DeclaresLegally) {params : List Node} (start : Token)
    (hparams : ∀ n ∈ params, n.DeclaresLegally) : (g.arrow params start).Legal := by
  refine .bind fun _ => .within (.bind fun _ => .ite ?_ ?_)
  · exact .bind_of (block_legal hg) fun _ hbody =>
      .pure (.mk rfl (by simpa using ⟨hparams, hbody⟩))
  · exact .bind_of hg.assignment fun _ hbody =>
      .pure (.mk rfl (by simpa using ⟨hparams, hbody⟩))

/-! Members of objects and of classes. -/

theorem numberLiteral_legal (t : Token) (raw : String) : (numberLiteral t raw).Legal := by
  unfold numberLiteral
  split
  · exact .pure (.mk rfl (by simp))
  · exact .fail _

theorem propertyKey_legal (hg : g.DeclaresLegally) :
    g.propertyKey.Returns fun k => k.node.DeclaresLegally := by
  refine .bind fun t => ?_
  split
  · exact .bind fun _ => .bind_of hg.assignment fun _ hkey => .bind fun _ => .pure hkey
  · exact .bind fun _ => .bind_of (numberLiteral_legal _ _) fun _ hkey => .pure hkey
  · exact .bind fun _ => .pure (.mk rfl (by simp))
  · exact .bind fun _ => .pure (by simp)

theorem plainProperty_legal (hg : g.DeclaresLegally) (start keyToken : Token)
    (before : List Token) {key : PropertyKey} (hkey : key.node.DeclaresLegally) :
    (g.plainProperty start keyToken before key).Legal := by
  refine .bind fun _ => .ite ?_ (.ite ?_ .unexpectedNext)
  · exact .bind_of hg.assignment fun _ hvalue => .pure (.mk rfl (by simpa using ⟨hkey, hvalue⟩))
  · exact .bind fun _ => .bind fun _ => .pure (.mk rfl (by simpa using hkey))

theorem methodProperty_legal (hg : g.DeclaresLegally) (start : Token) {key : PropertyKey}
    (hkey : key.node.DeclaresLegally) (m : Modifiers) : (g.methodProperty start key m).Legal :=
  .bind_of (method_legal hg _ _) fun _ hvalue => .bind fun _ =>
    .pure (.mk rfl (by simpa using ⟨hkey, hvalue⟩))

theorem property_legal (hg : g.DeclaresLegally) : g.property.Legal := by
  refine .bind fun start => .bind fun _ => .ite ?_ ?_
  · exact .bind_of hg.assignment fun _ he => .pure (.mk rfl (by simpa using he))
  · refine .bind fun m => .bind fun keyToken => .bind fun before =>
      .bind_of (propertyKey_legal hg) fun key hkey => .bind fun _ => ?_
    exact .ite (methodProperty_legal hg start hkey m)
      (plainProperty_legal hg start keyToken before hkey)

theorem object_legal (hg : g.DeclaresLegally) : g.object.Legal :=
  .bind fun _ => .bind_of (.separated (property_legal hg) _ _) fun _ hproperties =>
    .pure (.mk rfl (by simpa using hproperties))

/-- The key of a head, if it has one, declares legally. -/
def Head.KeyLegal (h : Head) : Prop := ∀ k ∈ h.key, k.node.DeclaresLegally

theorem modifierWord_legal (word : String) (noLineBreak : Bool) :
    (modifierWord word noLineBreak).Returns fun m =>
      ∀ k, m = .name k → k.node.DeclaresLegally := by
  refine .bind fun t => .bind fun _ => .ite (.bind fun _ => .bind fun _ => .ite ?_ ?_) ?_
  · refine .pure ?_
    rintro _ ⟨⟩
    exact .mk rfl (by simp)
  · exact .pure (by simp)
  · exact .pure (by simp)

theorem tryModifier_legal {h : Head} (hh : h.KeyLegal) (word : String) (noLineBreak : Bool) :
    (tryModifier h word noLineBreak).Returns fun r => r.2.KeyLegal := by
  refine .bind_of (modifierWord_legal word noLineBreak) fun m hm => ?_
  cases m with
  | absent => exact .pure hh
  | modifier => exact .pure hh
  | name key => exact .ite .unexpectedNext (.pure (by simpa [Head.KeyLegal] using hm key rfl))

theorem accessorWord_legal {h : Head} (hh : h.KeyLegal) : (accessorWord h).Returns Head.KeyLegal :=
  .bind_of (tryModifier_legal hh _ _) fun _ hr => .ite (.pure hr)
    (.bind_of (tryModifier_legal hr _ _) fun _ hr' => .pure (by split <;> exact hr'))

theorem asyncHead_legal {h : Head} (hh : h.KeyLegal) : (asyncHead h).Returns Head.KeyLegal :=
  .bind fun _ => .pure hh

theorem plainModifiers_legal {h : Head} (hh : h.KeyLegal) :
    (plainModifiers h).Returns Head.KeyLegal := by
  refine .bind fun _ => .ite (.pure hh) (.bind fun _ => .ite ?_ (accessorWord_legal hh))
  exact .bind_of (tryModifier_legal hh _ _) fun _ hr =>
    .ite (asyncHead_legal hr) (accessorWord_legal hr)

theorem memberKey_legal (hg : g.DeclaresLegally) {h : Head} (hh : h.KeyLegal) :
    (g.memberKey h).Returns fun k => k.node.DeclaresLegally := by
  unfold memberKey
  split
  · next key hkey => exact .pure (hh key hkey)
  · exact propertyKey_legal hg

theorem methodElement_legal (hg : g.DeclaresLegally) (h : Head) {key : PropertyKey}
    (hkey : key.node.DeclaresLegally) (kind : MethodKind) : (g.methodElement h key kind).Legal :=
  .bind_of (.within (method_legal hg _ _)) fun _ hvalue => .bind fun _ =>
    .pure (.mk rfl (by simpa using ⟨hkey, hvalue⟩))

theorem fieldElement_legal (hg : g.DeclaresLegally) (h : Head) {key : PropertyKey}
    (hkey : key.node.DeclaresLegally) : (g.fieldElement h key).Legal :=
  .bind_of (.within (initializer?_legal hg)) fun _ hvalue => .bind fun _ =>
    .pure (.mk rfl (by simpa using ⟨hkey, hvalue⟩))

theorem plainElement_legal (hg : g.DeclaresLegally) : g.plainElement.Legal := by
  refine .bind fun t => .bind_of (tryModifier_legal (by simp [Head.KeyLegal, Head.start]) _ _)
    fun r hr => .bind_of (plainModifiers_legal hr) fun h hh => ?_
  exact .bind_of (memberKey_legal hg hh) fun key hkey => .bind fun kind =>
    methodElement_legal hg h hkey kind

theorem privateKey_legal (h : Head) : (privateKey h).Returns fun k => k.node.DeclaresLegally :=
  .bind fun _ => .ite (.reject _ _) (.bind fun _ => .bind fun _ => .pure (.mk rfl (by simp)))

theorem privateField_legal (hg : g.DeclaresLegally) (h : Head) {key : PropertyKey}
    (hkey : key.node.DeclaresLegally) : (g.privateField h key).Legal := by
  refine .ite .unexpectedNext ?_
  split
  · exact .ite (.reject _ _) (fieldElement_legal hg h hkey)
  · exact fieldElement_legal hg h hkey

theorem methodOrField_legal (hg : g.DeclaresLegally) (h : Head) {key : PropertyKey}
    (hkey : key.node.DeclaresLegally) : (g.methodOrField h key).Legal := by
  refine .bind fun _ => .bind fun _ => .ite ?_ ?_
  · exact .bind_of (fieldElement_legal hg h hkey) fun _ hm => .bind fun _ => .pure hm
  · exact .bind_of (methodElement_legal hg h hkey _) fun _ hm => .bind fun _ => .pure hm

theorem elementRest_legal (hg : g.DeclaresLegally) {h : Head} (hh : h.KeyLegal) :
    (g.elementRest h).Legal := by
  unfold elementRest
  split
  · next key hkey => exact methodOrField_legal hg h (hh key hkey)
  · refine .bind fun _ => .ite ?_ ?_
    · exact .bind_of (privateKey_legal h) fun key hkey => .bind fun _ =>
        .ite (methodOrField_legal hg h hkey) (privateField_legal hg h hkey)
    · exact .bind_of (propertyKey_legal hg) fun key hkey =>
        .ite (.reject _ _) (methodOrField_legal hg h hkey)

theorem asyncElement_legal (hg : g.DeclaresLegally) {h : Head} (hh : h.KeyLegal) :
    (g.asyncElement h).Legal := by
  refine .bind fun _ => .ite ?_ ?_
  · exact .bind fun name => fieldElement_legal hg h (by simp)
  · refine .bind_of (tryModifier_legal hh _ _) fun r hr => .ite ?_ (elementRest_legal hg hr)
    exact .bind_of (asyncHead_legal hr) fun _ hh => elementRest_legal hg hh

theorem extendedElement_legal (hg : g.DeclaresLegally) {h : Head} (hh : h.KeyLegal) :
    (g.extendedElement h).Legal := by
  refine .bind fun _ => .ite (elementRest_legal hg hh) (.bind fun _ => .bind fun _ => .ite ?_ ?_)
  · exact asyncElement_legal hg hh
  · exact .bind_of (accessorWord_legal hh) fun _ hh => elementRest_legal hg hh

theorem privateDialectElement_legal (hg : g.DeclaresLegally) : g.privateDialectElement.Legal := by
  have hstart (t : Token) : (Head.start t).KeyLegal := by simp [Head.KeyLegal, Head.start]
  refine .bind fun start => .bind fun _ => .bind_of (tryModifier_legal (hstart start) _ _)
    fun r hr => .ite (extendedElement_legal hg hr) (.bind fun _ => .bind fun _ => ?_)
  exact .ite (extendedElement_legal hg (hstart start)) (plainElement_legal hg)

theorem className?_legal (isExpression : Bool) : (className? isExpression).OptionLegal :=
  .bind fun _ => .ite (.bind fun _ => .pure (by simp)) (.ite (.pure (by simp)) (.reject _ _))

theorem classElement_legal (hg : g.DeclaresLegally) : g.classElement.OptionLegal := by
  refine .bind fun _ => .ite (.pure (by simp)) (.bind fun c => ?_)
  cases c.dialect with
  | plain => exact .bind_of (plainElement_legal hg) fun _ hm => .pure (by simpa)
  | withPrivate => exact .bind_of (privateDialectElement_legal hg) fun _ hm => .pure (by simpa)

theorem classMembers_legal (hg : g.DeclaresLegally) : g.classMembers.ListLegal := by
  refine .bind fun _ => .collectFrom (fun hasConstructor => ?_) _ _
  refine .bind fun _ => .ite (.pure (by simp [Turn.items])) (.bind fun _ =>
    .ite .unexpectedNext (.bind_of (classElement_legal hg) fun m hm => ?_))
  cases m with
  | none => exact .pure (by simp [Turn.items])
  | some member => exact .ite (.reject _ _) (.pure (by simpa [Turn.items] using hm))

theorem superclass?_legal (hg : g.DeclaresLegally) : g.superclass?.OptionLegal :=
  .bind fun _ => .ite (.bind_of hg.subscripted fun _ hn => .pure (by simpa)) (.pure (by simp))

theorem classRest_legal (hg : g.DeclaresLegally) (isExpression : Bool) :
    (g.classRest isExpression).Legal := by
  refine .bind fun t => .within (.bind_of (className?_legal isExpression) fun name hname => ?_)
  exact .bind_of (superclass?_legal hg) fun superclass hsuperclass =>
    .bind_of (classMembers_legal hg) fun members hmembers =>
      .pure (.mk rfl (by simpa using ⟨hname, hsuperclass, hmembers⟩))

theorem class_legal (hg : g.DeclaresLegally) (isExpression : Bool) :
    (g.class_ isExpression).Legal := by
  refine .bind fun c => ?_
  cases c.dialect with
  | plain => exact classRest_legal hg isExpression
  | withPrivate => exact .inClassBody (classRest_legal hg isExpression)

/-! Expressions. -/

theorem spreadable_legal (hg : g.DeclaresLegally) : g.spreadable.Legal :=
  .bind fun _ => .bind fun _ =>
    .ite (.bind_of hg.assignment fun _ he => .pure (.mk rfl (by simpa using he))) hg.assignment

theorem arguments_legal (hg : g.DeclaresLegally) : g.arguments.ListLegal :=
  .separated (spreadable_legal hg) _ _

theorem element_legal (hg : g.DeclaresLegally) : g.element.OptionLegal :=
  .bind fun _ => .ite (.pure (by simp))
    (.bind_of (spreadable_legal hg) fun _ he => .pure (by simpa))

theorem array_legal (hg : g.DeclaresLegally) : g.array.Legal := by
  refine .bind fun t => .bind_of (.separated (element_legal hg) _ _) fun elements helements => ?_
  refine .pure (.mk rfl fun x hx => ?_)
  obtain ⟨e, he, rfl⟩ : ∃ e ∈ elements, e = some x := by simpa using hx
  exact helements _ he x rfl

theorem dotProperty_legal : dotProperty.Legal :=
  .bind fun _ => .bind fun _ => .ite (.bind fun _ => .bind fun _ => .pure (.mk rfl (by simp)))
    (.bind fun _ => .pure (by simp))

theorem subscript_legal (hg : g.DeclaresLegally) (calls : Bool) {base : Node}
    (hbase : base.DeclaresLegally) : (g.subscript calls base).OptionLegal := by
  have hwrap {s : Shape Node} (hs : s.isVarDecl = false)
      (h : ∀ x ∈ s.children, x.DeclaresLegally) : ∀ n ∈ some (base.wrap s), n.DeclaresLegally := by
    rintro _ ⟨⟩
    exact .mk hs h
  refine .bind fun t => ?_
  split
  · exact .bind fun _ => .bind_of dotProperty_legal fun _ hp =>
      .pure (hwrap rfl (by simpa using ⟨hbase, hp⟩))
  · exact .bind fun _ => .bind_of (expression_legal hg) fun _ hp => .bind fun _ =>
      .pure (hwrap rfl (by simpa using ⟨hbase, hp⟩))
  · exact .ite (.bind fun _ => .bind_of (arguments_legal hg) fun _ hargs =>
      .pure (hwrap rfl (by simpa using ⟨hbase, hargs⟩))) (.pure (by simp))
  · exact .pure (by simp)

theorem subscripts_legal (hg : g.DeclaresLegally) (calls : Bool) {base : Node}
    (hbase : base.DeclaresLegally) : (g.subscripts calls base).Legal :=
  .extend (fun _ hx => subscript_legal hg calls hx) hbase

theorem newExpression_legal (hg : g.DeclaresLegally) : g.newExpression.Legal := by
  refine .bind fun t => .bind fun _ => .ite (.reject _ _) (.bind_of hg.atom fun atom hatom => ?_)
  refine .bind_of (subscripts_legal hg false hatom) fun callee hcallee => .bind fun _ => .ite ?_ ?_
  · exact .bind_of (arguments_legal hg) fun _ hargs =>
      .pure (.mk rfl (by simpa using ⟨hcallee, hargs⟩))
  · exact .pure (.mk rfl (by simpa using hcallee))

theorem superExpression_legal : superExpression.Legal := by
  refine .bind fun t => .bind fun _ => .bind fun next => ?_
  split
  · exact .ite (.reject _ _) (.ite (.reject _ _) (.pure (.mk rfl (by simp))))
  · exact .ite (.reject _ _) (.pure (.mk rfl (by simp)))
  · exact .ite (.reject _ _) (.pure (.mk rfl (by simp)))
  · exact .unexpected _

theorem nameExpression_legal (hg : g.DeclaresLegally) : g.nameExpression.Legal :=
  .bind fun t => .bind fun _ => .ite (.bind fun _ => function_legal hg _ _)
    (.bind fun _ => .bind fun _ => .ite (arrow_legal hg t (by simp)) (.pure (by simp)))

theorem parenExpression_legal (hg : g.DeclaresLegally) : g.parenExpression.Legal :=
  .bind fun t => .bind fun _ => .ite
    (.bind_of (params_legal hg) fun _ hparams => arrow_legal hg t hparams) (parenthesized_legal hg)

theorem atomRule_legal (hg : g.DeclaresLegally) : g.atomRule.Legal := by
  have hleaf {t : Token} {s : Shape Node} (hs : s.isVarDecl = false)
      (h : ∀ x ∈ s.children, x.DeclaresLegally) :
      (do let _ ← advance; return t.node s : Parser Node).Legal :=
    .bind fun _ => .pure (.mk hs h)
  refine .bind fun t => ?_
  split
  · exact superExpression_legal
  · exact hleaf rfl (by simp)
  · exact nameExpression_legal hg
  · exact .bind fun _ => numberLiteral_legal _ _
  · exact hleaf rfl (by simp)
  · exact hleaf rfl (by simp)
  · exact hleaf rfl (by simp)
  · exact hleaf rfl (by simp)
  · exact parenExpression_legal hg
  · exact array_legal hg
  · exact object_legal hg
  · exact function_legal hg _ _
  · exact class_legal hg _
  · exact newExpression_legal hg
  · exact .unexpected _

theorem subscriptedRule_legal (hg : g.DeclaresLegally) : g.subscriptedRule.Legal :=
  .bind_of (atomRule_legal hg) fun _ hatom => .ite (.pure hatom) (subscripts_legal hg true hatom)

theorem postfixUpdate_legal {operand : Node} (h : operand.DeclaresLegally) :
    (postfixUpdate operand).OptionLegal := by
  refine .bind fun t => ?_
  split
  · refine .ite (.pure (by simp)) (.bind fun _ => .bind fun _ => .pure ?_)
    rintro _ ⟨⟩
    exact .mk rfl (by simpa using h)
  · exact .pure (by simp)

theorem unaryOperator_legal (hg : g.DeclaresLegally) (t : Token) (op : UnaryOp) :
    (g.unaryOperator t op).Legal := by
  refine .bind_of hg.unary fun operand h => ?_
  have hn : (t.node (.unary op operand)).DeclaresLegally := .mk rfl (by simpa using h)
  exact .ite (.bind fun _ => .pure hn) (.pure hn)

theorem prefixUpdate_legal (hg : g.DeclaresLegally) (t : Token) (op : UpdateOp) :
    (g.prefixUpdate t op).Legal :=
  .bind_of hg.unary fun _ h => .bind fun _ => .pure (.mk rfl (by simpa using h))

theorem unaryRule_legal (hg : g.DeclaresLegally) : g.unaryRule.Legal := by
  refine .bind fun t => .bind fun _ => .ite ?_ ?_
  · exact .bind fun _ => .bind_of hg.unary fun _ h => .pure (.mk rfl (by simpa using h))
  · split
    · exact .bind fun _ => unaryOperator_legal hg _ _
    · exact .bind fun _ => prefixUpdate_legal hg _ _
    · exact .bind_of (subscriptedRule_legal hg) fun _ h => .extend (fun _ => postfixUpdate_legal) h

theorem climb_legal {unary : Parser Node} (hunary : unary.Legal) {turns bound : Nat} {left : Node}
    (hleft : left.DeclaresLegally) : (climb unary turns bound left).Legal := by
  induction turns generalizing bound left with
  | zero => exact .fail _
  | succ turns ih =>
    refine .bind fun x => ?_
    split
    · exact .pure hleft
    · refine .ite (.pure hleft) (.bind fun _ => .bind_of hunary fun operand hoperand => ?_)
      exact .bind_of (ih hoperand) fun right hright =>
        ih (.mk rfl (by simpa using ⟨hleft, hright⟩))

theorem conditionalRule_legal (hg : g.DeclaresLegally) : g.conditionalRule.Legal := by
  have hbinary : g.binaryRule.Legal :=
    .bind_of (unaryRule_legal hg) fun _ h => climb_legal (unaryRule_legal hg) h
  refine .bind_of hbinary fun condition hcondition => .bind fun _ => .ite ?_ (.pure hcondition)
  exact .bind_of hg.assignment fun _ hconsequent => .bind fun _ =>
    .bind_of hg.assignment fun _ halternate =>
      .pure (.mk rfl (by simpa using ⟨hcondition, hconsequent, halternate⟩))

theorem yieldExpression_legal (hg : g.DeclaresLegally) : g.yieldExpression.Legal :=
  .bind fun _ => .bind fun _ => .ite (.pure (.mk rfl (by simp)))
    (.bind fun _ => .bind_of hg.assignment fun _ h => .pure (.mk rfl (by simpa using h)))

theorem assignmentRule_legal (hg : g.DeclaresLegally) : g.assignmentRule.Legal := by
  refine .bind fun _ => .bind fun _ => .ite (yieldExpression_legal hg) ?_
  refine .bind_of (conditionalRule_legal hg) fun target htarget => .bind fun _ => ?_
  split
  · exact .pure htarget
  · exact .bind fun _ => .bind fun _ => .bind_of hg.assignment fun _ hvalue =>
      .pure (.mk rfl (by simpa using ⟨htarget, hvalue⟩))

/-! Declarations. -/

/-- The rule for declarations keeps the rules of the kind. -/
theorem declarator_legal (hg : g.DeclaresLegally) (kind : VarKind) :
    (g.declarator kind).Returns fun d => d.IsLegalDeclarator kind ∧ d.DeclaresLegally := by
  refine .bind fun name => .ite_of (fun _ => .bind fun _ => .reject _ _) fun hname => ?_
  have hlet : kind ≠ .var → name.name ≠ "let" := by simpa using hname
  refine .bind_of (initializer?_legal hg) fun init hinit => ?_
  cases init with
  | some value =>
    exact .pure ⟨⟨name, some value, rfl, hlet, fun _ => rfl⟩, .mk rfl (by simpa using hinit)⟩
  | none =>
    refine .ite_of (fun _ => .bind fun _ => .reject _ _) fun hkind =>
      .pure ⟨?_, .mk rfl (by simp)⟩
    exact ⟨name, none, rfl, hlet, fun hconst => absurd hconst (by simpa using hkind)⟩

theorem varDecl_legal (hg : g.DeclaresLegally) (kind : VarKind) : (g.varDecl kind).Legal := by
  have hturn : (do
      let d ← g.declarator kind
      if ← accept .comma then return .more [d] () else return .stop [d] :
        Parser (Turn Unit Node)).Returns
      fun r => ∀ d ∈ r.items, d.IsLegalDeclarator kind ∧ d.DeclaresLegally :=
    .bind_of (declarator_legal hg kind) fun d hd => .bind fun _ =>
      .ite (.pure (by simpa [Turn.items] using hd)) (.pure (by simpa [Turn.items] using hd))
  refine .bind fun t => .bind_of (.collect hturn _) fun declarators hdeclarators =>
    .pure (.of_children ?_ fun d hd => ?_)
  · rintro _ _ ⟨⟩ d hd
    exact (hdeclarators d hd).1
  · have hd : d ∈ declarators := by simpa [Node.children, Token.node, Node.shape] using hd
    exact (hdeclarators d hd).2

/-- A loop over keys or values may have a loop variable that is no legal declaration. -/
theorem forInRest_legal (hg : g.DeclaresLegally) (t : Token) {left : Node}
    (hleft : left.InnerLegal) (hvariable : left.IsLegalDeclaration ∨
      ∃ kind, ∃ name : Ident, left.shape = .varDecl kind [⟨.declarator name.node none, name.pos⟩]) :
    (g.forInRest t left).Legal := by
  have hloop {right body : Node} {of : Bool} (hright : right.DeclaresLegally)
      (hbody : body.DeclaresLegally) : (t.node (.forIn left right body of)).DeclaresLegally := by
    refine ⟨Node.isLegalDeclaration_of_other rfl, Node.innerLegal_iff.2 ?_⟩
    have hleft' : left.IsLegalDeclaration ∨
        (t.node (.forIn left right body of)).IsLoopVariable left :=
      hvariable.imp_right fun h => ⟨⟨right, body, of, rfl⟩, h⟩
    simpa [Node.children, Token.node, Node.shape] using
      ⟨⟨hleft', Or.inl hright.1, Or.inl hbody.1⟩, hleft, hright.2, hbody.2⟩
  refine .bind fun _ => .ite ?_ (.bind fun _ => ?_)
  · exact .bind_of (expression_legal hg) fun _ hright => .bind fun _ =>
      .bind_of hg.statement fun _ hbody => .pure (hloop hright hbody)
  · exact .bind_of hg.assignment fun _ hright => .bind fun _ =>
      .bind_of hg.statement fun _ hbody => .pure (hloop hright hbody)

theorem optionalBefore_legal (hg : g.DeclaresLegally) (close : Punct) :
    (g.optionalBefore close).OptionLegal :=
  .bind fun _ => .ite (.pure (by simp)) (.bind_of (expression_legal hg) fun _ h => .pure (by simpa))

theorem forRest_legal (hg : g.DeclaresLegally) (t : Token) {init : Option Node}
    (hinit : ∀ n ∈ init, n.DeclaresLegally) : (g.forRest t init).Legal := by
  refine .bind fun _ => .bind_of (optionalBefore_legal hg _) fun condition hcondition =>
    .bind fun _ => .bind_of (optionalBefore_legal hg _) fun step hstep => .bind fun _ => ?_
  exact .bind_of hg.statement fun body hbody =>
    .pure (.mk rfl (by simpa using ⟨hinit, hcondition, hstep, hbody⟩))

theorem forStatement_legal (hg : g.DeclaresLegally) : g.forStatement.Legal := by
  refine .bind fun t => .bind fun _ => .bind fun kind => ?_
  cases kind with
  | some kind =>
    refine .bind fun _ => .ite (.bind fun keyword => .bind fun name => ?_) ?_
    · refine forInRest_legal hg t (Node.innerLegal_iff.2 ?_) (Or.inr ⟨kind, name, rfl⟩)
      have hd : (Node.mk (.declarator name.node none) name.pos).DeclaresLegally :=
        .mk rfl (by simp)
      simpa [Node.children, Token.node, Node.shape] using ⟨Or.inl hd.1, hd.2⟩
    · exact .bind_of (varDecl_legal hg kind) fun _ h => forRest_legal hg t (by simpa)
  | none =>
    refine .bind fun _ => .ite (.bind fun name => ?_) ?_
    · exact forInRest_legal hg t name.node_declaresLegally.2 (Or.inl name.node_declaresLegally.1)
    · exact .bind_of (optionalBefore_legal hg _) fun _ h => forRest_legal hg t h

/-! Statements. -/

theorem varStatement_legal (hg : g.DeclaresLegally) (kind : VarKind) :
    (g.varStatement kind).Legal :=
  .bind_of (varDecl_legal hg kind) fun _ h => .bind fun _ => .pure h

theorem returnStatement_legal (hg : g.DeclaresLegally) : g.returnStatement.Legal := by
  refine .bind fun t => .bind fun _ => .ite (.reject _ _) (.bind fun _ => .bind fun _ => .ite ?_ ?_)
  · exact .bind fun _ => .pure (.mk rfl (by simp))
  · exact .bind_of (expression_legal hg) fun _ h => .bind fun _ =>
      .pure (.mk rfl (by simpa using h))

theorem ifStatement_legal (hg : g.DeclaresLegally) : g.ifStatement.Legal := by
  refine .bind fun t => .bind_of (parenthesized_legal hg) fun condition hcondition =>
    .bind_of hg.statement fun consequent hconsequent => .bind fun _ => .ite ?_ ?_
  · exact .bind_of hg.statement fun _ halternate =>
      .pure (.mk rfl (by simpa using ⟨hcondition, hconsequent, halternate⟩))
  · exact .pure (.mk rfl (by simpa using ⟨hcondition, hconsequent⟩))

theorem whileStatement_legal (hg : g.DeclaresLegally) : g.whileStatement.Legal :=
  .bind fun _ => .bind_of (parenthesized_legal hg) fun _ hcondition =>
    .bind_of hg.statement fun _ hbody => .pure (.mk rfl (by simpa using ⟨hcondition, hbody⟩))

theorem doWhileStatement_legal (hg : g.DeclaresLegally) : g.doWhileStatement.Legal :=
  .bind fun _ => .bind_of hg.statement fun _ hbody => .bind fun _ =>
    .bind_of (parenthesized_legal hg) fun _ hcondition => .bind fun _ =>
      .pure (.mk rfl (by simpa using ⟨hbody, hcondition⟩))

theorem caseRest_legal (hg : g.DeclaresLegally) (t : Token) {test : Option Node}
    (htest : ∀ n ∈ test, n.DeclaresLegally) : (g.caseRest t test).Legal :=
  .bind fun _ => .bind_of (statementsUntil_legal hg _) fun _ hbody =>
    .pure (.mk rfl (by simpa using ⟨htest, hbody⟩))

theorem switchCases_legal (hg : g.DeclaresLegally) : g.switchCases.ListLegal := by
  refine .collectFrom (fun hasDefault => .bind fun t => ?_) _ _
  split
  · exact .pure (by simp [Turn.items])
  · exact .pure (by simp [Turn.items])
  · exact .bind fun _ => .bind_of (expression_legal hg) fun test htest =>
      .bind_of (caseRest_legal hg t (by simpa)) fun _ h => .pure (by simpa [Turn.items])
  · exact .bind fun _ => .ite (.reject _ _)
      (.bind_of (caseRest_legal hg t (by simp)) fun _ h => .pure (by simpa [Turn.items]))
  · exact .unexpected _

theorem switchStatement_legal (hg : g.DeclaresLegally) : g.switchStatement.Legal :=
  .bind fun _ => .bind_of (parenthesized_legal hg) fun _ hdiscriminant => .bind fun _ =>
    .bind_of (switchCases_legal hg) fun _ hcases => .bind fun _ =>
      .pure (.mk rfl (by simpa using ⟨hdiscriminant, hcases⟩))

theorem wordStatement_legal {s : Shape Node} (hs : s.isVarDecl = false)
    (h : ∀ x ∈ s.children, x.DeclaresLegally) : (wordStatement s).Legal :=
  .bind fun _ => .bind fun _ => .pure (.mk hs h)

theorem throwStatement_legal (hg : g.DeclaresLegally) : g.throwStatement.Legal :=
  .bind fun _ => .bind fun _ => .ite (.reject _ _)
    (.bind_of (expression_legal hg) fun _ h => .bind fun _ => .pure (.mk rfl (by simpa using h)))

theorem catchParam?_legal : catchParam?.OptionLegal :=
  .bind fun _ => .ite (.bind fun _ => .bind fun _ => .pure (by simp)) (.pure (by simp))

theorem handler?_legal (hg : g.DeclaresLegally) : g.handler?.Returns fun r =>
    (∀ n ∈ r.1, n.DeclaresLegally) ∧ ∀ n ∈ r.2, n.DeclaresLegally :=
  .bind fun _ => .ite (.bind_of catchParam?_legal fun _ hparam =>
    .bind_of (block_legal hg) fun _ hblock => .pure ⟨hparam, by simpa⟩) (.pure (by simp))

theorem finalizer?_legal (hg : g.DeclaresLegally) : g.finalizer?.OptionLegal :=
  .bind fun _ => .ite (.bind_of (block_legal hg) fun _ h => .pure (by simpa)) (.pure (by simp))

theorem tryStatement_legal (hg : g.DeclaresLegally) : g.tryStatement.Legal := by
  refine .bind fun t => .bind_of (block_legal hg) fun block hblock =>
    .bind_of (handler?_legal hg) fun r hr =>
      .bind_of (finalizer?_legal hg) fun finalizer hfinalizer => ?_
  exact .ite (.reject _ _) (.pure (.mk rfl (by simpa using ⟨hblock, hr.1, hr.2, hfinalizer⟩)))

theorem expressionStatement_legal (hg : g.DeclaresLegally) : g.expressionStatement.Legal :=
  .bind fun _ => .bind_of (commaExpression_legal (assignmentRule_legal hg)) fun _ h =>
    .bind fun _ => .pure (.mk rfl (by simpa using h))

theorem otherStatement_legal (hg : g.DeclaresLegally) : g.otherStatement.Legal :=
  .bind fun _ => .ite (.bind fun _ => function_legal hg _ _) (expressionStatement_legal hg)

theorem simpleStatement_legal (hg : g.DeclaresLegally) : g.simpleStatement.Legal := by
  refine .bind fun t => ?_
  split
  · exact block_legal hg
  · exact .bind fun _ => .pure (.mk rfl (by simp))
  · exact function_legal hg _ _
  · exact class_legal hg _
  · exact returnStatement_legal hg
  · exact ifStatement_legal hg
  · exact whileStatement_legal hg
  · exact doWhileStatement_legal hg
  · exact forStatement_legal hg
  · exact switchStatement_legal hg
  · exact wordStatement_legal rfl (by simp)
  · exact wordStatement_legal rfl (by simp)
  · exact tryStatement_legal hg
  · exact throwStatement_legal hg
  · exact wordStatement_legal rfl (by simp)
  · exact .reject _ _
  · exact .reject _ _
  · exact .reject _ _
  · exact otherStatement_legal hg

theorem statementRule_legal (hg : g.DeclaresLegally) : g.statementRule.Legal := by
  refine .bind fun kind => ?_
  cases kind with
  | some kind => exact varStatement_legal hg kind
  | none => exact simpleStatement_legal hg

/-- The rules of every level build legal declarations only. -/
theorem level_declaresLegally (depth : Nat) : (level depth).DeclaresLegally := by
  induction depth with
  | zero => exact ⟨.fail _, .fail _, .fail _, .fail _, .fail _⟩
  | succ depth ih =>
    have hg : { level depth with turns := (level depth).turns + 1 }.DeclaresLegally :=
      ⟨ih.statement, ih.assignment, ih.unary, ih.subscripted, ih.atom⟩
    exact ⟨statementRule_legal hg, assignmentRule_legal hg, unaryRule_legal hg,
      subscriptedRule_legal hg, atomRule_legal hg⟩

end Grammar

/-- No declaration of an accepted program with `let` or `const` declares `let`, and every constant
has a value. The loop variables of loops over keys or values are apart: they are single names
without a value. -/
theorem declarations_legal (options : Options) (source : String) (parsed : Parsed)
    (h : parse options source = .ok parsed) :
    (∀ n ∈ parsed.program.body, n.IsLegalDeclaration) ∧
    ∀ p ∈ parsed.program.nodes, ∀ n ∈ p.children, n.IsLegalDeclaration ∨ p.IsLoopVariable n := by
  obtain ⟨stream, t, -, hs⟩ := parse_eq_ok h
  rw [TokenStream.statements, Grammar.program] at hs
  have hbody : ∀ n ∈ parsed.program.body, n.DeclaresLegally :=
    (Grammar.statementsUntil_legal (Grammar.level_declaresLegally _) _).of_ok hs
  refine ⟨fun n hn => (hbody n hn).1, fun p hp => ?_⟩
  obtain ⟨root, hroot, hp⟩ := List.mem_flatMap.1 hp
  exact (hbody root hroot).2 p hp

/-- Declarations as statements and in the heads of all loops, the last of which declares `let`. -/
def declarationsText : String :=
  "let a = 1, b; const c = 2; for (const d = 3;;) break; for (const let in b);"

theorem declarationsText_legal : ∃ parsed, parse .default declarationsText = .ok parsed ∧
    (parsed.program.nodes.countP fun n => match n.shape with
      | .varDecl .. => true
      | _ => false) = 4 ∧
    (∀ n ∈ parsed.program.body, n.IsLegalDeclaration) ∧
    ∀ p ∈ parsed.program.nodes, ∀ n ∈ p.children,
      n.IsLegalDeclaration ∨ p.IsLoopVariable n := by
  have hread : ((parse .default declarationsText).toOption.map fun p =>
      p.program.nodes.countP fun n => match n.shape with
        | .varDecl .. => true
        | _ => false) = some 4 := by
    decide +kernel
  obtain ⟨parsed, hp, hcount⟩ := exists_of_toOption hread
  exact ⟨parsed, hp, hcount, declarations_legal .default declarationsText parsed hp⟩

/-- A loop whose variable is called `let`. -/
def letLoopText : String := "for (let let in x);"

/-- A declaration with `let` that declares `let`. -/
def Node.declaresLet (n : Node) : Bool :=
  match n.shape with
  | .varDecl .let declarators => declarators.any fun d => match d.shape with
    | .declarator name _ => match name.shape with
      | .identifier word => word == "let"
      | _ => false
    | _ => false
  | _ => false

theorem exists_of_declaresLet (h : n.declaresLet) : ∃ declarators d name init,
    n.shape = .varDecl .let declarators ∧ d ∈ declarators ∧ d.shape = .declarator name init ∧
      name.shape = .identifier "let" := by
  unfold Node.declaresLet at h
  split at h
  · next declarators hdeclarators =>
    obtain ⟨d, hd, h⟩ := List.any_eq_true.1 h
    split at h
    · next name init hdeclarator =>
      split at h
      · next word hname =>
        obtain rfl : word = "let" := by simpa using h
        exact ⟨declarators, d, name, init, hdeclarators, hd, hdeclarator, hname⟩
      · cases h
    · cases h
  · cases h

/-- Declarations with `let` and `const` may declare `let` after all, as those of loop variables. -/
theorem loop_declares_let :
    ¬ ∀ options source parsed, parse options source = .ok parsed →
      (∀ n ∈ parsed.program.nodes, ∀ kind declarators, n.shape = .varDecl kind declarators →
        kind ≠ .var → ∀ d ∈ declarators, ∀ name init, d.shape = .declarator name init →
          name.shape ≠ .identifier "let") ∧
      ∀ p ∈ parsed.program.nodes, ∀ n ∈ p.children, ∀ declarators,
        n.shape = .varDecl .const declarators →
          (∃ right body of, p.shape = .forIn n right body of) ∨
          ∀ d ∈ declarators, ∀ name init, d.shape = .declarator name init → init.isSome := by
  intro h
  have hread : ((parse .default letLoopText).toOption.map fun p =>
      p.program.nodes.any Node.declaresLet) = some true := by
    decide +kernel
  obtain ⟨parsed, hp, hany⟩ := exists_of_toOption hread
  obtain ⟨n, hn, hlet⟩ := List.any_eq_true.1 hany
  obtain ⟨declarators, d, name, init, hdeclarators, hd, hd', hname⟩ := exists_of_declaresLet hlet
  exact (h _ _ _ hp).1 n hn .let declarators hdeclarators (by decide) d hd name init hd' hname

end JsClass
