import JsClass.Proofs.Likeness.Scopes
import JsClass.Proofs.Likeness.Statements

/-!
Runs in step. Two runs of the grammar that see alike tokens, under the same options and in alike
scopes, answer alike and leave alike states behind, at a fault as well.
-/
namespace JsClass

variable {m : Matching}

/-- The words that no check of reserved words stops at. -/
def isOrdinaryWord (word : String) : Bool :=
  (Keyword.ofWord? word).isNone && !reservedWords.contains word
    && !strictReservedWords.contains word && word != "await"

/-- Problems that were recorded, of one cause and at matched positions. -/
structure Diagnostic.AlikeSoft (m : Matching) (d d' : Diagnostic) : Prop where
  cause : d.cause = d'.cause
  soft : d.cause.isSoft = true
  pos : m.pos d.pos d'.pos

inductive Fault.Alike (m : Matching) : Fault → Fault → Prop
  | rejected {d d'} (h : Diagnostic.AlikeFatal m d d') : Alike m (.rejected d) (.rejected d')
  | unreadableNumber : Alike m .unreadableNumber .unreadableNumber
  | noClass : Alike m .noClass .noClass
  | exhausted : Alike m .exhausted .exhausted

/-- How the tokens to come are matched. -/
structure Alignment (m : Matching) where
  streams : List Token → List Token → Prop
  alike : ∀ {ts ts'}, streams ts ts' → List.Forall₂ (Token.Alike m) ts ts'
  tail : ∀ {ts ts'}, streams ts ts' → streams ts.tail ts'.tail

namespace Alignment

/-- Places that differ in the end of input only. Where private words are checked, a word that is
matched with another one passes the check, and so does the other one. -/
structure Contexts (m : Matching) (c c' : Context) : Prop where
  finish : c.finish.Alike m c'.finish
  rest : c' = { c with finish := c'.finish }
  words : c.options.reserved = .never → ∀ {w w'}, m.word w w' →
    w = w' ∨ isOrdinaryWord w ∧ isOrdinaryWord w'

theorem Contexts.alike {c c' : Context} (h : Contexts m c c') : c.Alike m c' := by
  obtain ⟨hfinish, hrest, -⟩ := h
  rw [hrest]
  exact ⟨rfl, rfl, hfinish, rfl, rfl, rfl, rfl, rfl⟩

theorem Contexts.change {c c' : Context} (h : Contexts m c c') {f : Context → Context}
    (hf : Context.IsChange f) : Contexts m (f c) (f c') := by
  obtain ⟨hfinish, hrest, hwords⟩ := h
  rw [hrest]
  cases hf <;> exact ⟨hfinish, rfl, hwords⟩

variable (a : Alignment m)

structure States (s s' : State) : Prop where
  pending : a.streams s.pending s'.pending
  reported : List.Forall₂ (Diagnostic.AlikeSoft m) s.reported s'.reported
  scope : s.scope.Alike m s'.scope

/-- Both runs succeed with related values, or both end with the same fault. -/
inductive Replies {α β : Type} (V : α → β → Prop) : Reply α → Reply β → Prop
  | ok {x y s s'} (h : V x y) (hs : a.States s s') : Replies V (.ok x s) (.ok y s')
  | error {f f' s s'} (h : Fault.Alike m f f') (hs : a.States s s') :
    Replies V (.error f s) (.error f' s')

/-- Rules that run in step wherever they begin in step. -/
def Runs {α β : Type} (V : α → β → Prop) (p : Parser α) (p' : Parser β) : Prop :=
  ∀ ⦃c c' s s'⦄, Contexts m c c' → a.States s s' → a.Replies V (p c s) (p' c' s')

variable {a} {α β : Type} {V : α → β → Prop} {p : Parser α} {p' : Parser β} {c c' : Context}
  {s s' : State}

theorem headD_alike {ts ts' : List Token} (h : List.Forall₂ (Token.Alike m) ts ts')
    {e e' : Token} (he : e.Alike m e') : (ts.headD e).Alike m (ts'.headD e') := by
  cases h with
  | nil => exact he
  | cons ht _ => exact ht

theorem next_alike (hc : Contexts m c c') (hs : a.States s s') : (c.next s).Alike m (c'.next s') :=
  headD_alike (a.alike hs.pending) hc.finish

theorem runs_pure {x : α} {y : β} (h : V x y) : a.Runs V (pure x) (pure y) :=
  fun _ _ _ _ _ hs => .ok h hs

theorem runs_bind {α' β' : Type} {U : α' → β' → Prop} {f : α → Parser α'} {f' : β → Parser β'}
    (hp : a.Runs V p p') (hf : ∀ x y, V x y → a.Runs U (f x) (f' y)) :
    a.Runs U (p >>= f) (p' >>= f') := by
  intro c c' s s' hc hs
  have hrun := hp hc hs
  rw [Parser.bind_apply, Parser.bind_apply]
  generalize p c s = r at hrun
  generalize p' c' s' = r' at hrun
  cases hrun with
  | ok h ht => exact hf _ _ h hc ht
  | error hf ht => exact .error hf ht

theorem runs_reject {k k' : Cause} {p p' : Position}
    (h : Diagnostic.AlikeFatal m ⟨k, p⟩ ⟨k', p'⟩) :
    a.Runs V (Parser.reject k p) (Parser.reject k' p') :=
  fun _ _ _ _ _ hs => .error (.rejected h) hs

theorem runs_report {k : Cause} {p p' : Position} (hsoft : k.isSoft = true) (hp : m.pos p p') :
    a.Runs (fun _ _ => True) (Parser.report k p) (Parser.report k p') :=
  fun _ _ _ _ _ hs => .ok trivial
    ⟨hs.pending, List.rel_append hs.reported (.cons ⟨rfl, hsoft, hp⟩ .nil), hs.scope⟩

theorem runs_advance : a.Runs (Token.Alike m) Parser.advance Parser.advance := by
  intro c c' s s' hc hs
  have hnext := next_alike hc hs
  rw [Parser.advance_eq_ok.2 ⟨rfl, rfl⟩, Parser.advance_eq_ok.2 ⟨rfl, rfl⟩]
  exact .ok hnext ⟨a.tail hs.pending, hs.reported, hs.scope⟩

theorem runs_ite {P P' : Prop} [Decidable P] [Decidable P'] {q : Parser α} {q' : Parser β}
    (h : P ↔ P') (hp : a.Runs V p p') (hq : a.Runs V q q') :
    a.Runs V (if P then p else q) (if P' then p' else q') := by
  by_cases hP : P
  · rw [if_pos hP, if_pos (h.1 hP)]
    exact hp
  · rw [if_neg hP, if_neg fun hP' => hP (h.2 hP')]
    exact hq

theorem runs_context {f : Context → Parser α} {f' : Context → Parser β}
    (hf : ∀ c c', Contexts m c c' → a.Runs V (f c) (f' c')) :
    a.Runs V (Parser.context >>= f) (Parser.context >>= f') :=
  fun _ _ _ _ hc hs => hf _ _ hc hc hs

theorem runs_within {f : Context → Context} (hf : Context.IsChange f) (hp : a.Runs V p p') :
    a.Runs V (Parser.within f p) (Parser.within f p') :=
  fun _ _ _ _ hc hs => hp (hc.change hf) hs

/-! Checks of words. -/

theorem runs_checkUnreserved (word : String) {p p' : Position} (hp : m.pos p p') :
    a.Runs (fun _ _ => True) (Parser.checkUnreserved word p) (Parser.checkUnreserved word p') := by
  refine runs_context fun c c' hc => ?_
  rw [hc.rest]
  refine runs_ite .rfl (runs_reject (.same rfl rfl hp)) (runs_ite .rfl
    (runs_reject (.same rfl rfl hp)) (runs_ite .rfl (runs_reject (.same rfl rfl hp)) ?_))
  exact runs_ite .rfl (runs_report rfl hp) (runs_pure trivial)

theorem checkUnreserved_ordinary {word : String} (h : isOrdinaryWord word) (p : Position) :
    Parser.checkUnreserved word p = pure () := by
  simp only [isOrdinaryWord, Bool.and_eq_true, Bool.not_eq_true', bne_iff_ne,
    Option.isNone_iff_eq_none] at h
  obtain ⟨⟨⟨hkeyword, hreserved⟩, hstrict⟩, hawait⟩ := h
  have hyield : word ≠ "yield" := by
    rintro rfl
    revert hstrict
    decide
  funext c s
  show (if _ then _ else _ : Parser Unit) c s = _
  simp [Context.isReserved, hkeyword, hawait, hyield, hreserved, hstrict,
    -List.contains_eq_mem]

theorem runs_checkPrivate {i i' : Ident} (h : i.AlikePrivate m i') :
    a.Runs (fun _ _ => True) (Parser.checkIfNever i) (Parser.checkIfNever i') := by
  refine runs_context fun c c' hc => ?_
  have hpolicy : c'.options = c.options := by rw [hc.rest]
  rw [hpolicy]
  by_cases hnever : c.options.reserved = .never
  · rw [if_pos (by simpa using hnever), if_pos (by simpa using hnever)]
    rcases hc.words hnever h.word with hword | ⟨hword, hword'⟩
    · rw [← hword]
      exact runs_checkUnreserved _ h.pos
    · rw [checkUnreserved_ordinary hword, checkUnreserved_ordinary hword']
      exact runs_pure trivial
  · rw [if_neg (by simpa using hnever), if_neg (by simpa using hnever)]
    exact runs_pure trivial

theorem runs_checkIfNever {i i' : Ident} (h : i.Alike m i') :
    a.Runs (fun _ _ => True) (Parser.checkIfNever i) (Parser.checkIfNever i') := by
  refine runs_context fun c c' hc => ?_
  rw [hc.rest, ← h.name]
  exact runs_ite .rfl (runs_checkUnreserved _ h.pos) (runs_pure trivial)

theorem runs_checkDelete {t t' : Token} {n n' : Node} (ht : t.Alike m t') (hn : n.Alike m n') :
    a.Runs (fun _ _ => True) (Grammar.checkDelete t n) (Grammar.checkDelete t' n') := by
  refine runs_context fun c c' hc => ?_
  rw [hc.rest, ← hn.isIdentifier, ← hn.isPrivateAccess]
  exact runs_ite .rfl (runs_reject (.same rfl rfl ht.pos))
    (runs_ite .rfl (runs_reject (.same rfl rfl ht.pos)) (runs_pure trivial))

/-! Private names. -/

theorem runs_onScope {op op' : Scope → Scope.Attempt}
    (hop : ∀ {x x' : Scope}, x.Alike m x' → Scope.Attempt.Alike m (op x) (op' x')) :
    a.Runs (fun _ _ => True) (Parser.onScope op) (Parser.onScope op') := by
  intro c c' s s' hc hs
  have hrun := hop hs.scope
  unfold Parser.onScope
  generalize op s.scope = r at hrun
  generalize op' s'.scope = r' at hrun
  cases hrun with
  | ok h => exact .ok trivial ⟨hs.pending, hs.reported, h⟩
  | diagnostic hd h => exact .error (.rejected hd) ⟨hs.pending, hs.reported, h⟩
  | noClass h => exact .error .noClass ⟨hs.pending, hs.reported, h⟩

theorem runs_inClassBody (hp : a.Runs V p p') :
    a.Runs V (Parser.inClassBody p) (Parser.inClassBody p') := by
  intro c c' s s' hc hs
  have hbody := @hp c c' { s with scope := s.scope.enter } { s' with scope := s'.scope.enter } hc
    ⟨hs.pending, hs.reported, hs.scope.enter⟩
  unfold Parser.inClassBody
  generalize p c { s with scope := s.scope.enter } = r at hbody
  generalize p' c' { s' with scope := s'.scope.enter } = r' at hbody
  cases hbody with
  | ok h ht => exact runs_bind (runs_onScope fun h => h.exit) (fun _ _ _ => runs_pure h) hc ht
  | error h ht => exact .error h ⟨ht.pending, ht.reported, ht.scope.abandon⟩

/-- Runs in step are a likeness, so all rules run in step. -/
def likeness (a : Alignment m) : Likeness m where
  runs := a.Runs
  streams := a.streams
  streams_alike := a.alike
  pure := runs_pure
  bind := runs_bind
  exhausted := fun _ hs => .error .exhausted hs
  unreadable := fun _ hs => .error .unreadableNumber hs
  reject := runs_reject
  report := runs_report
  context := fun _ _ _ _ hc hs => .ok hc.alike hs
  within := runs_within
  peek := fun _ _ _ _ hc hs => .ok (next_alike hc hs) hs
  peekAt := fun n _ _ _ _ hc hs =>
    .ok (headD_alike (List.forall₂_drop n (a.alike hs.pending)) hc.finish) hs
  advance := runs_advance
  pending := fun _ _ _ _ _ hs => .ok hs.pending hs
  restore := fun h _ _ _ _ _ hs => .ok trivial ⟨h, hs.reported, hs.scope⟩
  checkUnreserved := fun word _ _ => runs_checkUnreserved word
  checkIfNever := runs_checkIfNever
  checkPrivate := runs_checkPrivate
  checkDelete := runs_checkDelete
  use := fun hw hp => runs_onScope fun h => h.use hw hp
  declare := fun hw hp => runs_onScope fun h => h.declare hw _ hp
  inClassBody := runs_inClassBody

/-- Programs whose tokens are matched are read in step. -/
theorem statements {ts ts' : TokenStream} (d : Dialect) (options : Options)
    (htokens : a.streams ts.tokens ts'.tokens) (hfinish : ts.finish.Alike m ts'.finish)
    (hwords : options.reserved = .never → ∀ {w w'}, m.word w w' →
      w = w' ∨ isOrdinaryWord w ∧ isOrdinaryWord w') :
    a.Replies (List.Forall₂ (Node.Alike m)) (ts.statements d options)
      (ts'.statements d options) := by
  have hlength : ts.tokens.length = ts'.tokens.length := (a.alike htokens).length_eq
  unfold TokenStream.statements
  rw [hlength]
  have hprogram : a.Runs _ _ _ := Likeness.program (a.likeness.level (ts'.tokens.length + 1))
  exact hprogram ⟨hfinish, rfl, hwords⟩ ⟨htokens, .nil, .nil⟩

/-! One run beside itself. -/

theorem token_alike (t : Token) : t.Alike .equal t := by
  refine ⟨?_, rfl, rfl, trivial⟩
  cases hk : t.kind with
  | privateName w => exact .privateName rfl
  | _ => exact .same rfl

/-- A run beside itself, which sees no tokens but those at the end of `all`. -/
def inside (all : List Token) : Alignment .equal where
  streams ts ts' := ts = ts' ∧ ts <:+ all
  alike := by
    rintro ts _ ⟨rfl, -⟩
    exact List.forall₂_same.2 fun t _ => token_alike t
  tail := by
    rintro ts _ ⟨rfl, h⟩
    exact ⟨rfl, (List.tail_suffix ts).trans h⟩

theorem statements_inside (ts : TokenStream) (d : Dialect) (options : Options) :
    (inside ts.tokens).Replies (List.Forall₂ (Node.Alike .equal)) (ts.statements d options)
      (ts.statements d options) :=
  statements d options ⟨rfl, List.suffix_rfl⟩ (token_alike _) fun _ _ _ h => Or.inl h

end Alignment

end JsClass
