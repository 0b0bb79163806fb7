import Mathlib.Data.List.Forall2
import JsClass.Grammar.Expression

/-!
Values of two runs side by side. A matching says which positions, private words and tokens of one
text stand for which ones of another; tokens, nodes and problems are alike if they differ in
nothing else.
-/
namespace JsClass

/-- How the positions and the private words of one text are matched with those of another: in
order, and one to one. The words that mean something for a member stay what they are. Of tokens it
may say more than what follows from their positions and words. -/
structure Matching where
  pos : Position → Position → Prop
  word : String → String → Prop
  token : Token → Token → Prop
  pos_lt : ∀ {p p' q q'}, pos p p' → pos q q' → p.lt q = p'.lt q'
  word_eq : ∀ {w w' v v'}, word w w' → word v v' → (w = v ↔ w' = v')
  word_fixed : ∀ {w w'}, word w w' → ∀ v ∈ ["", "constructor", "prototype"], (w = v ↔ w' = v)

theorem Matching.word_beq (m : Matching) {w w' : String} (h : m.word w w') {v : String}
    (hv : v ∈ ["", "constructor", "prototype"]) : (w == v) = (w' == v) := by
  rw [Bool.eq_iff_iff, beq_iff_eq, beq_iff_eq]
  exact m.word_fixed h v hv

/-- Every position and every word is matched with itself. -/
def Matching.equal : Matching where
  pos := Eq
  word := Eq
  token _ _ := True
  pos_lt := by rintro p _ q _ rfl rfl; rfl
  word_eq := by rintro w _ v _ rfl rfl; rfl
  word_fixed := by rintro w _ rfl v _; rfl

variable {m : Matching}

/-! Tokens. -/

inductive Kind.Alike (m : Matching) : Kind → Kind → Prop
  | same {k : Kind} (h : k.isPrivateName = false) : Alike m k k
  | privateName {w w' : String} (h : m.word w w') : Alike m (.privateName w) (.privateName w')

/-- What does not depend on private words agrees. -/
theorem Kind.Alike.congr {γ : Type} {k k' : Kind} (h : Kind.Alike m k k') (f : Kind → γ)
    (hf : ∀ w w', f (.privateName w) = f (.privateName w')) : f k = f k' := by
  cases h with
  | same => rfl
  | privateName => exact hf _ _

structure Token.Alike (m : Matching) (t t' : Token) : Prop where
  kind : Kind.Alike m t.kind t'.kind
  newline : t.newlineBefore = t'.newlineBefore
  pos : m.pos t.pos t'.pos
  token : m.token t t'

theorem Token.Alike.is {t t' : Token} (h : t.Alike m t') {k : Kind} (hk : k.isPrivateName = false) :
    (t.kind == k) = (t'.kind == k) := by
  refine h.kind.congr (· == k) fun w w' => ?_
  cases k with
  | privateName => cases hk
  | _ => rfl

theorem Token.Alike.kind_cases {t t' : Token} (h : t.Alike m t') :
    (t.kind = t'.kind ∧ ∀ w, t.kind ≠ .privateName w) ∨
      ∃ w w', t.kind = .privateName w ∧ t'.kind = .privateName w' ∧ m.word w w' := by
  obtain ⟨k, place, newline⟩ := t
  obtain ⟨k', place', newline'⟩ := t'
  cases h.kind with
  | same hk =>
    refine Or.inl ⟨rfl, fun w hw => ?_⟩
    cases hw
    cases hk
  | privateName hw => exact Or.inr ⟨_, _, rfl, rfl, hw⟩

/-! Nodes. -/

section Shapes

variable {α β : Type}

/-- Shapes with alike children that agree in all else. -/
inductive Shape.Alike (m : Matching) (R : α → β → Prop) : Shape α → Shape β → Prop
  | function : Option.Rel R name name' → List.Forall₂ R params params' → R body body' →
    Alike m R (.function form name params body isAsync isGenerator)
      (.function form name' params' body' isAsync isGenerator)
  | class_ : Option.Rel R name name' → Option.Rel R superclass superclass' →
    List.Forall₂ R members members' →
    Alike m R (.class_ name superclass members isExpression)
      (.class_ name' superclass' members' isExpression)
  | method : R key key' → R value value' →
    Alike m R (.method key value kind isStatic computed)
      (.method key' value' kind isStatic computed)
  | field : R key key' → Option.Rel R value value' →
    Alike m R (.field key value isStatic computed) (.field key' value' isStatic computed)
  | param : R name name' → Option.Rel R value value' →
    Alike m R (.param name value rest) (.param name' value' rest)
  | declarator : R name name' → Option.Rel R init init' →
    Alike m R (.declarator name init) (.declarator name' init')
  | block : List.Forall₂ R statements statements' →
    Alike m R (.block statements) (.block statements')
  | varDecl : List.Forall₂ R declarators declarators' →
    Alike m R (.varDecl kind declarators) (.varDecl kind declarators')
  | return_ : Option.Rel R value value' → Alike m R (.return_ value) (.return_ value')
  | if_ : R condition condition' → R consequent consequent' → Option.Rel R alternate alternate' →
    Alike m R (.if_ condition consequent alternate) (.if_ condition' consequent' alternate')
  | while_ : R condition condition' → R body body' →
    Alike m R (.while_ condition body) (.while_ condition' body')
  | doWhile : R body body' → R condition condition' →
    Alike m R (.doWhile body condition) (.doWhile body' condition')
  | for_ : Option.Rel R init init' → Option.Rel R condition condition' →
    Option.Rel R step step' → R body body' →
    Alike m R (.for_ init condition step body) (.for_ init' condition' step' body')
  | forIn : R left left' → R right right' → R body body' →
    Alike m R (.forIn left right body of) (.forIn left' right' body' of)
  | break_ : Alike m R .break_ .break_
  | continue_ : Alike m R .continue_ .continue_
  | throw_ : R argument argument' → Alike m R (.throw_ argument) (.throw_ argument')
  | try_ : R body body' → Option.Rel R caught caught' → Option.Rel R handler handler' →
    Option.Rel R finalizer finalizer' →
    Alike m R (.try_ body caught handler finalizer) (.try_ body' caught' handler' finalizer')
  | case_ : Option.Rel R test test' → List.Forall₂ R body body' →
    Alike m R (.case_ test body) (.case_ test' body')
  | switch_ : R discriminant discriminant' → List.Forall₂ R cases cases' →
    Alike m R (.switch_ discriminant cases) (.switch_ discriminant' cases')
  | exprStmt : R expr expr' → Alike m R (.exprStmt expr) (.exprStmt expr')
  | empty : Alike m R .empty .empty
  | debugger : Alike m R .debugger .debugger
  | identifier : Alike m R (.identifier name) (.identifier name)
  | privateName : m.word name name' → Alike m R (.privateName name) (.privateName name')
  | number : Alike m R (.number value raw) (.number value raw)
  | string : Alike m R (.string value) (.string value)
  | bool : Alike m R (.bool value) (.bool value)
  | null : Alike m R .null .null
  | this : Alike m R .this .this
  | super : Alike m R .super .super
  | array : List.Forall₂ (Option.Rel R) elements elements' →
    Alike m R (.array elements) (.array elements')
  | spread : R argument argument' → Alike m R (.spread argument) (.spread argument')
  | property : R key key' → R value value' →
    Alike m R (.property key value kind computed shorthand isMethod)
      (.property key' value' kind computed shorthand isMethod)
  | object : List.Forall₂ R properties properties' →
    Alike m R (.object properties) (.object properties')
  | arrow : List.Forall₂ R params params' → R body body' →
    Alike m R (.arrow params body isExpression) (.arrow params' body' isExpression)
  | member : R obj obj' → R prop prop' →
    Alike m R (.member obj prop computed) (.member obj' prop' computed)
  | call : R callee callee' → List.Forall₂ R args args' →
    Alike m R (.call callee args) (.call callee' args')
  | new_ : R callee callee' → List.Forall₂ R args args' →
    Alike m R (.new_ callee args) (.new_ callee' args')
  | unary : R operand operand' → Alike m R (.unary op operand) (.unary op operand')
  | update : R operand operand' →
    Alike m R (.update op operand before) (.update op operand' before)
  | binary : R left left' → R right right' →
    Alike m R (.binary left op right) (.binary left' op right')
  | assign : R target target' → R value value' →
    Alike m R (.assign target op value) (.assign target' op value')
  | ternary : R condition condition' → R consequent consequent' → R alternate alternate' →
    Alike m R (.ternary condition consequent alternate) (.ternary condition' consequent' alternate')
  | sequence : List.Forall₂ R expressions expressions' →
    Alike m R (.sequence expressions) (.sequence expressions')
  | await : R argument argument' → Alike m R (.await argument) (.await argument')
  | yield : Option.Rel R argument argument' →
    Alike m R (.yield argument delegate) (.yield argument' delegate)

end Shapes

/-- Trees of the same shape, with matched positions and private words. -/
inductive Node.Alike (m : Matching) : Node → Node → Prop
  | mk {s s' : Shape Node} {p p' : Position} (shape : Shape.Alike m (Node.Alike m) s s')
    (pos : m.pos p p') : Node.Alike m ⟨s, p⟩ ⟨s', p'⟩

theorem Token.Alike.node {t t' : Token} {s s' : Shape Node} (h : t.Alike m t')
    (hs : Shape.Alike m (Node.Alike m) s s') : (t.node s).Alike m (t'.node s') :=
  ⟨hs, h.pos⟩

namespace Node.Alike

variable {n n' : Node}

theorem pos (h : n.Alike m n') : m.pos n.pos n'.pos := by
  cases h with
  | mk hs hp => exact hp

theorem shape (h : n.Alike m n') : Shape.Alike m (Node.Alike m) n.shape n'.shape := by
  cases h with
  | mk hs hp => exact hs

theorem wrap {s s' : Shape Node} (h : n.Alike m n') (hs : Shape.Alike m (Node.Alike m) s s') :
    (n.wrap s).Alike m (n'.wrap s') :=
  ⟨hs, h.pos⟩

theorem params (h : n.Alike m n') : List.Forall₂ (Node.Alike m) n.params n'.params := by
  obtain ⟨hs, -⟩ := h
  cases hs
  case function hname hparams hbody => exact hparams
  all_goals exact .nil

theorem isRest (h : n.Alike m n') : n.isRest = n'.isRest := by
  obtain ⟨hs, -⟩ := h
  cases hs <;> rfl

theorem isIdentifier (h : n.Alike m n') : n.isIdentifier = n'.isIdentifier := by
  obtain ⟨hs, -⟩ := h
  cases hs <;> rfl

theorem isPrivateName (h : n.Alike m n') : n.isPrivateName = n'.isPrivateName := by
  obtain ⟨hs, -⟩ := h
  cases hs <;> rfl

theorem keyName? (h : n.Alike m n') : n.keyName? = n'.keyName? := by
  obtain ⟨hs, -⟩ := h
  cases hs <;> rfl

theorem isConstructor (h : n.Alike m n') : n.isConstructor = n'.isConstructor := by
  obtain ⟨hs, -⟩ := h
  cases hs
  case method kind isStatic computed hkey hvalue => cases kind <;> rfl
  all_goals rfl

theorem isTarget (h : n.Alike m n') : n.isTarget = n'.isTarget := by
  obtain ⟨hs, -⟩ := h
  cases hs <;> rfl

theorem isArrow (h : n.Alike m n') : n.isArrow = n'.isArrow := by
  obtain ⟨hs, -⟩ := h
  cases hs <;> rfl

theorem isPrivateAccess (h : n.Alike m n') : n.isPrivateAccess = n'.isPrivateAccess := by
  obtain ⟨hs, -⟩ := h
  cases hs
  case member hobject hproperty => exact hproperty.isPrivateName
  all_goals rfl

end Node.Alike

/-! Words, keys and heads of members. -/

structure Ident.Alike (m : Matching) (i i' : Ident) : Prop where
  name : i.name = i'.name
  pos : m.pos i.pos i'.pos

theorem Ident.Alike.node {i i' : Ident} (h : i.Alike m i') : i.node.Alike m i'.node := by
  obtain ⟨name, pos⟩ := i
  obtain ⟨name', pos'⟩ := i'
  obtain ⟨rfl, hp⟩ := h
  exact ⟨.identifier, hp⟩

theorem Ident.Alike.param {i i' : Ident} (h : i.Alike m i') : i.param.Alike m i'.param :=
  ⟨.param h.node .none, h.pos⟩

/-- Private names whose words are matched. -/
structure Ident.AlikePrivate (m : Matching) (i i' : Ident) : Prop where
  word : m.word i.name i'.name
  pos : m.pos i.pos i'.pos

namespace Grammar

structure PropertyKey.Alike (m : Matching) (k k' : PropertyKey) : Prop where
  node : k.node.Alike m k'.node
  computed : k.computed = k'.computed

theorem PropertyKey.Alike.name? {k k' : PropertyKey} (h : k.Alike m k') : k.name? = k'.name? := by
  rw [PropertyKey.name?, PropertyKey.name?, h.computed, h.node.keyName?]

structure Head.Alike (m : Matching) (h h' : Head) : Prop where
  pos : m.pos h.pos h'.pos
  isStatic : h.isStatic = h'.isStatic
  key : Option.Rel (PropertyKey.Alike m) h.key h'.key
  modifiers : h.modifiers = h'.modifiers

inductive ModifierWord.Alike (m : Matching) : ModifierWord → ModifierWord → Prop
  | absent : Alike m .absent .absent
  | modifier : Alike m .modifier .modifier
  | name {k k' : PropertyKey} (h : k.Alike m k') : Alike m (.name k) (.name k')

end Grammar

/-! Problems. -/

/-- The problems that are recorded, and do not end reading. -/
def Cause.isSoft : Cause → Bool
  | .reservedWord _ | .getterParams | .setterArity | .setterRest => true
  | _ => false

/-- The problems whose message quotes a token or a private name. -/
def Cause.quotes : Cause → Bool
  | .unexpectedToken _ | .restNotLast _ | .duplicatePrivate _ | .undeclaredPrivate _ => true
  | _ => false

/-- What is wrong where a token of this kind cannot stand. -/
def Kind.misplaced : Kind → Cause
  | .eof => .unexpectedEnd
  | .privateName word => .unexpectedToken (.ofString ("#" ++ word))
  | kind => .unexpectedToken kind.text

theorem Parser.unexpected_eq {α : Type} (t : Token) :
    (Parser.unexpected t : Parser α) = Parser.reject t.kind.misplaced t.pos := by
  obtain ⟨kind, place, newline⟩ := t
  cases kind <;> rfl

/-- Problems that end reading. They are of one cause, or their causes quote matched words or alike
tokens; where a token is quoted, the problem is at its position. -/
inductive Diagnostic.AlikeFatal (m : Matching) : Diagnostic → Diagnostic → Prop
  | same {k : Cause} {p p' : Position} (hfatal : k.isSoft = false) (hplain : k.quotes = false)
    (hp : m.pos p p') : AlikeFatal m ⟨k, p⟩ ⟨k, p'⟩
  | misplaced {t t' : Token} (h : t.Alike m t') :
    AlikeFatal m ⟨t.kind.misplaced, t.pos⟩ ⟨t'.kind.misplaced, t'.pos⟩
  | restNotLast {t t' : Token} (h : t.Alike m t') :
    AlikeFatal m ⟨.restNotLast t.kind.text, t.pos⟩ ⟨.restNotLast t'.kind.text, t'.pos⟩
  | duplicatePrivate {w w' : String} {p p' : Position} (hw : m.word w w') (hp : m.pos p p') :
    AlikeFatal m ⟨.duplicatePrivate w, p⟩ ⟨.duplicatePrivate w', p'⟩
  | undeclaredPrivate {w w' : String} {p p' : Position} (hw : m.word w w') (hp : m.pos p p') :
    AlikeFatal m ⟨.undeclaredPrivate w, p⟩ ⟨.undeclaredPrivate w', p'⟩

namespace Diagnostic.AlikeFatal

variable {d d' : Diagnostic}

theorem pos (h : AlikeFatal m d d') : m.pos d.pos d'.pos := by
  cases h with
  | same _ _ hp => exact hp
  | misplaced ht | restNotLast ht => exact ht.pos
  | duplicatePrivate _ hp | undeclaredPrivate _ hp => exact hp

theorem fatal (h : AlikeFatal m d d') : d.cause.isSoft = false := by
  cases h with
  | same hfatal => exact hfatal
  | @misplaced t => cases hk : t.kind <;> rfl
  | restNotLast | duplicatePrivate | undeclaredPrivate => rfl

/-- Where words are matched with themselves only, the causes agree. -/
theorem cause_eq (hword : ∀ {w w'}, m.word w w' → w = w') (h : AlikeFatal m d d') :
    d.cause = d'.cause := by
  have hkind {t t' : Token} (ht : t.Alike m t') : t.kind = t'.kind := by
    rcases ht.kind_cases with ⟨hk, -⟩ | ⟨w, w', hw, hw', hww⟩
    · exact hk
    · rw [hw, hw', hword hww]
  cases h with
  | same => rfl
  | misplaced ht | restNotLast ht => rw [hkind ht]
  | duplicatePrivate hw | undeclaredPrivate hw => rw [hword hw]

theorem eq (h : AlikeFatal .equal d d') : d = d' := by
  obtain ⟨cause, pos⟩ := d
  obtain ⟨cause', pos'⟩ := d'
  rw [show cause = cause' from h.cause_eq id, show pos = pos' from h.pos]

end Diagnostic.AlikeFatal

/-! Contexts. -/

/-- Places where the rules, checks of words apart, go the same way. -/
structure Context.Alike (m : Matching) (c c' : Context) : Prop where
  dialect : c.dialect = c'.dialect
  edition : c.options.edition = c'.options.edition
  finish : c.finish.Alike m c'.finish
  inFunction : c.inFunction = c'.inFunction
  inAsync : c.inAsync = c'.inAsync
  inGenerator : c.inGenerator = c'.inGenerator
  inStaticField : c.inStaticField = c'.inStaticField
  inPrivateMethod : c.inPrivateMethod = c'.inPrivateMethod

/-- The changes of context that the rules make. -/
inductive Context.IsChange : (Context → Context) → Prop
  | function (isAsync isGenerator : Bool) : IsChange (Context.function isAsync isGenerator)
  | arrow : IsChange Context.arrow
  | strict : IsChange ({ · with strict := true })
  | privateMethod (b : Bool) : IsChange ({ · with inPrivateMethod := b })
  | staticField (b : Bool) : IsChange ({ · with inStaticField := b })

end JsClass
