import JsClass.Proofs.Grammar.Success
import JsClass.Proofs.Likeness.Values

/-!
Runs side by side. A likeness is any relation between rules that all steps of reading respect: the
ways to put rules together, looks at the tokens, checks of words, and calls on the private names.
Rules are made of these steps and nothing else, so every grammar is like itself.
-/
namespace JsClass

/-- A relation between rules, given the relation of their values, that every step respects. -/
structure Likeness (m : Matching) where
  runs : {α β : Type} → (α → β → Prop) → Parser α → Parser β → Prop
  /-- Which tokens to come may be gone back to. -/
  streams : List Token → List Token → Prop
  streams_alike : ∀ {ts ts'}, streams ts ts' → List.Forall₂ (Token.Alike m) ts ts'
  pure : ∀ {α β : Type} {V : α → β → Prop} {a b}, V a b → runs V (Pure.pure a) (Pure.pure b)
  bind : ∀ {α β α' β' : Type} {V : α → β → Prop} {U : α' → β' → Prop} {p : Parser α}
    {p' : Parser β} {f : α → Parser α'} {f' : β → Parser β'}, runs V p p' →
    (∀ a b, V a b → runs U (f a) (f' b)) → runs U (p >>= f) (p' >>= f')
  exhausted : ∀ {α β : Type} {V : α → β → Prop},
    runs V (Parser.fail .exhausted) (Parser.fail .exhausted)
  unreadable : ∀ {α β : Type} {V : α → β → Prop},
    runs V (Parser.fail .unreadableNumber) (Parser.fail .unreadableNumber)
  reject : ∀ {α β : Type} {V : α → β → Prop} {k k' p p'}, Diagnostic.AlikeFatal m ⟨k, p⟩ ⟨k', p'⟩ →
    runs V (Parser.reject k p) (Parser.reject k' p')
  report : ∀ {k p p'}, k.isSoft = true → m.pos p p' →
    runs (fun _ _ => True) (Parser.report k p) (Parser.report k p')
  context : runs (Context.Alike m) Parser.context Parser.context
  within : ∀ {α β : Type} {V : α → β → Prop} {p : Parser α} {p' : Parser β} {f},
    Context.IsChange f → runs V p p' → runs V (Parser.within f p) (Parser.within f p')
  peek : runs (Token.Alike m) Parser.peek Parser.peek
  peekAt : ∀ n, runs (Token.Alike m) (Parser.peekAt n) (Parser.peekAt n)
  advance : runs (Token.Alike m) Parser.advance Parser.advance
  pending : runs streams Parser.pending Parser.pending
  restore : ∀ {ts ts'}, streams ts ts' →
    runs (fun _ _ => True) (Parser.restore ts) (Parser.restore ts')
  checkUnreserved : ∀ word {p p'}, m.pos p p' →
    runs (fun _ _ => True) (Parser.checkUnreserved word p) (Parser.checkUnreserved word p')
  checkIfNever : ∀ {i i'}, Ident.Alike m i i' →
    runs (fun _ _ => True) (Parser.checkIfNever i) (Parser.checkIfNever i')
  checkPrivate : ∀ {i i'}, Ident.AlikePrivate m i i' →
    runs (fun _ _ => True) (Parser.checkIfNever i) (Parser.checkIfNever i')
  checkDelete : ∀ {t t' n n'}, Token.Alike m t t' → Node.Alike m n n' →
    runs (fun _ _ => True) (Grammar.checkDelete t n) (Grammar.checkDelete t' n')
  use : ∀ {w w' p p'}, m.word w w' → m.pos p p' →
    runs (fun _ _ => True) (Parser.onScope (·.use w p)) (Parser.onScope (·.use w' p'))
  declare : ∀ {w w' kind p p'}, m.word w w' → m.pos p p' → runs (fun _ _ => True)
    (Parser.onScope (·.declare w kind p)) (Parser.onScope (·.declare w' kind p'))
  inClassBody : ∀ {α β : Type} {V : α → β → Prop} {p : Parser α} {p' : Parser β},
    runs V p p' → runs V (Parser.inClassBody p) (Parser.inClassBody p')

namespace Likeness

open JsClass.Parser

variable {m : Matching} (L : Likeness m) {α β σ τ : Type} {V : α → β → Prop} {S : σ → τ → Prop}
  {p q : Parser α} {p' q' : Parser β}

/-- Rules that read alike nodes. -/
abbrev nodes (p p' : Parser Node) : Prop := L.runs (Node.Alike m) p p'

/-- Rules whose values agree. -/
abbrev same (p p' : Parser α) : Prop := L.runs Eq p p'

/-- Rules whose values do not matter. -/
abbrev steps (p : Parser α) (p' : Parser β) : Prop := L.runs (fun _ _ => True) p p'

variable {L}

theorem done {a : α} : L.same (Pure.pure a) (Pure.pure a) := L.pure rfl

theorem step {α' β' : Type} {U : α' → β' → Prop} {f : α → Parser α'} {f' : β → Parser β'}
    (hp : L.runs V p p') (hf : ∀ a b, L.runs U (f a) (f' b)) :
    L.runs U (p >>= f) (p' >>= f') :=
  L.bind hp fun a b _ => hf a b

theorem ite_iff {P P' : Prop} [Decidable P] [Decidable P'] (h : P ↔ P') (hp : L.runs V p p')
    (hq : L.runs V q q') : L.runs V (if P then p else q) (if P' then p' else q') := by
  by_cases hP : P
  · rw [if_pos hP, if_pos (h.1 hP)]
    exact hp
  · rw [if_neg hP, if_neg fun hP' => hP (h.2 hP')]
    exact hq

theorem ite {b b' : Bool} (h : b = b') (hp : L.runs V p p') (hq : L.runs V q q') :
    L.runs V (if b then p else q) (if b' then p' else q') :=
  ite_iff (by rw [h]) hp hq

/-- A choice between rules that both sides make together. -/
theorem choose {x : Parser Bool} (hx : L.same x x) (hp : L.runs V p p') (hq : L.runs V q q') :
    L.runs V (x >>= fun b => if b then p else q) (x >>= fun b => if b then p' else q') :=
  L.bind hx fun _ _ h => ite h hp hq

/-! Tokens. -/

/-- What is asked of the next token's kind, private words apart. -/
theorem ask {γ : Type} (f : Token → γ) (hf : ∀ {t t' : Token}, t.Alike m t' → f t = f t') :
    L.same (Parser.peek >>= fun t => Pure.pure (f t)) (Parser.peek >>= fun t => Pure.pure (f t)) :=
  L.bind L.peek fun _ _ ht => L.pure (hf ht)

theorem checkKind {k : Kind} (hk : k.isPrivateName = false) :
    L.same (Parser.checkKind k) (Parser.checkKind k) :=
  ask (·.kind == k) fun ht => ht.is hk

theorem check (p : Punct) : L.same (Parser.check p) (Parser.check p) := checkKind rfl

theorem checkWord (word : String) : L.same (Parser.checkWord word) (Parser.checkWord word) :=
  checkKind rfl

theorem atEnd : L.same Parser.atEnd Parser.atEnd := checkKind (k := .eof) rfl

theorem canInsertSemicolon : L.same Parser.canInsertSemicolon Parser.canInsertSemicolon :=
  ask (fun t => t.kind == .eof || t.kind == .punct .rbrace || t.newlineBefore) fun ht => by
    rw [ht.is rfl, ht.is rfl, ht.newline]

theorem acceptKind {k : Kind} (hk : k.isPrivateName = false) :
    L.same (Parser.acceptKind k) (Parser.acceptKind k) :=
  choose (checkKind hk) (step L.advance fun _ _ => done) done

theorem accept (p : Punct) : L.same (Parser.accept p) (Parser.accept p) := acceptKind rfl

theorem acceptKeyword (k : Keyword) : L.same (Parser.acceptKeyword k) (Parser.acceptKeyword k) :=
  acceptKind rfl

theorem unexpected {t t' : Token} (h : t.Alike m t') :
    L.runs V (Parser.unexpected t) (Parser.unexpected t') := by
  rw [Parser.unexpected_eq, Parser.unexpected_eq]
  exact L.reject (.misplaced h)

theorem unexpectedNext : L.runs V Parser.unexpectedNext Parser.unexpectedNext :=
  L.bind L.peek fun _ _ => unexpected

theorem expectKind {k : Kind} (hk : k.isPrivateName = false) :
    L.runs (Token.Alike m) (Parser.expectKind k) (Parser.expectKind k) :=
  L.bind L.peek fun _ _ ht => ite (ht.is hk) L.advance (unexpected ht)

theorem expect (p : Punct) : L.runs (Token.Alike m) (Parser.expect p) (Parser.expect p) :=
  expectKind rfl

theorem expectKeyword (k : Keyword) :
    L.runs (Token.Alike m) (Parser.expectKeyword k) (Parser.expectKeyword k) :=
  expectKind rfl

theorem semicolon : L.steps Parser.semicolon Parser.semicolon :=
  choose (accept _) (L.pure trivial) (choose canInsertSemicolon (L.pure trivial) unexpectedNext)

/-! Words. -/

theorem anyWord : L.runs (Ident.Alike m) Parser.anyWord Parser.anyWord := by
  refine L.bind L.peek fun t t' ht => ?_
  have hword : t.kind.word? = t'.kind.word? := ht.kind.congr Kind.word? fun _ _ => rfl
  rw [← hword]
  split
  · exact unexpected ht
  · exact step L.advance fun _ _ => L.pure ⟨rfl, ht.pos⟩

theorem ident : L.runs (Ident.Alike m) Parser.ident Parser.ident := by
  refine L.bind anyWord fun i i' hi => step (V := fun _ _ => True) ?_ fun _ _ =>
    L.bind L.context fun c c' hc => ite ?_ (L.reject (.same rfl rfl hi.pos)) (L.pure hi)
  · rw [← hi.name]
    exact L.checkUnreserved _ hi.pos
  · rw [hc.inStaticField, hi.name]

theorem propertyWord : L.runs (Ident.Alike m) Parser.propertyWord Parser.propertyWord :=
  L.bind anyWord fun _ _ hi => step (L.checkIfNever hi) fun _ _ => L.pure hi

theorem privateName : L.runs (Ident.AlikePrivate m) Parser.privateName Parser.privateName := by
  refine L.bind L.peek fun t t' ht => ?_
  rcases ht.kind_cases with ⟨hk, hnot⟩ | ⟨w, w', hw, hw', hword⟩
  · rw [← hk]
    split
    · next w hw => exact (hnot w hw).elim
    · exact unexpected ht
  · simp only [hw, hw']
    exact step L.advance fun _ _ => ite (m.word_beq hword (by simp))
      (L.reject (.same rfl rfl ht.pos))
      (step (L.checkPrivate ⟨hword, ht.pos⟩) fun _ _ => L.pure ⟨hword, ht.pos⟩)

/-! Repetitions. -/

/-- Turns that go on or stop together, with alike items. -/
inductive Turns (S : σ → τ → Prop) (V : α → β → Prop) : Turn σ α → Turn τ β → Prop
  | stop {items items'} (h : List.Forall₂ V items items') : Turns S V (.stop items) (.stop items')
  | more {items items' x x'} (h : List.Forall₂ V items items') (hx : S x x') :
    Turns S V (.more items x) (.more items' x')

/-- Turns that hand nothing on. -/
abbrev UnitTurns (V : α → β → Prop) : Turn Unit α → Turn Unit β → Prop := Turns Eq V

theorem collectFrom {turn : σ → Parser (Turn σ α)} {turn' : τ → Parser (Turn τ β)}
    (hturn : ∀ x x', S x x' → L.runs (Turns S V) (turn x) (turn' x')) (turns : Nat) {x : σ} {x' : τ}
    (hx : S x x') :
    L.runs (List.Forall₂ V) (Parser.collectFrom turn turns x)
      (Parser.collectFrom turn' turns x') := by
  induction turns generalizing x x' with
  | zero => exact L.exhausted
  | succ turns ih =>
    refine L.bind (hturn x x' hx) fun r r' hr => ?_
    cases hr with
    | stop hitems => exact L.pure hitems
    | more hitems hnext =>
      exact L.bind (ih hnext) fun _ _ hrest => L.pure (List.rel_append hitems hrest)

theorem collect {turn : Parser (Turn Unit α)} {turn' : Parser (Turn Unit β)}
    (hturn : L.runs (UnitTurns V) turn turn') (turns : Nat) :
    L.runs (List.Forall₂ V) (Parser.collect turns turn) (Parser.collect turns turn') :=
  collectFrom (fun _ _ _ => hturn) turns rfl

theorem extend {next : α → Parser (Option α)} {next' : β → Parser (Option β)}
    (hnext : ∀ a b, V a b → L.runs (Option.Rel V) (next a) (next' b)) (turns : Nat) {a : α} {b : β}
    (hab : V a b) : L.runs V (Parser.extend next turns a) (Parser.extend next' turns b) := by
  induction turns generalizing a b with
  | zero => exact L.exhausted
  | succ turns ih =>
    refine L.bind (hnext a b hab) fun r r' hr => ?_
    cases hr with
    | none => exact L.pure hab
    | some h => exact ih h

theorem separated (turns : Nat) (close : Punct) {item : Parser α} {item' : Parser β}
    (hitem : L.runs V item item') :
    L.runs (List.Forall₂ V) (Parser.separated turns close item)
      (Parser.separated turns close item') := by
  refine choose (accept _) (L.pure .nil) (L.bind hitem fun _ _ hfirst =>
    L.bind (collect ?_ turns) fun _ _ hrest => L.pure (.cons hfirst hrest))
  refine choose (accept _) (L.pure (.stop .nil)) (step (expect _) fun _ _ =>
    choose (accept _) (L.pure (.stop .nil)) (L.bind hitem fun _ _ hx => ?_))
  exact L.pure (.more (.cons hx .nil) rfl)

end Likeness

end JsClass
