import JsClass.Proofs.Likeness.Alignment

/-!
Runs among the tokens. Wherever a run begins with the tokens from some index on, it goes on with
the tokens from some index on, also where it goes back, and so it ends, at a fault as well.
-/
namespace JsClass

variable {α β : Type}

/-! Values that are alike for being the same. -/

theorem Ident.Alike.eq {i i' : Ident} (h : i.Alike .equal i') : i = i' := by
  obtain ⟨name, pos⟩ := i
  obtain ⟨rfl, rfl⟩ := h
  rfl

theorem Ident.AlikePrivate.eq {i i' : Ident} (h : i.AlikePrivate .equal i') : i = i' := by
  obtain ⟨name, pos⟩ := i
  obtain ⟨rfl, rfl⟩ := h
  rfl

theorem Token.forall₂_alike_of_eq {ts ts' : List Token} (h : ts = ts') :
    List.Forall₂ (Token.Alike .equal) ts ts' := by
  subst h
  exact List.forall₂_same.2 fun t _ => Alignment.token_alike t

/-- Two runs end in the same state, which is before one of the tokens or behind the last one, with
related values or with the same fault. -/
inductive Reply.Agree (tokens : List Token) (V : α → β → Prop) : Reply α → Reply β → Prop
  | ok {a b t} (h : V a b) (ht : t.pending <:+ tokens) : Agree tokens V (.ok a t) (.ok b t)
  | error {f t} (ht : t.pending <:+ tokens) : Agree tokens V (.error f t) (.error f t)

namespace Range

/-- Rules that agree wherever they begin among the tokens. -/
def Runs (tokens : List Token) (V : α → β → Prop) (p : Parser α) (p' : Parser β) : Prop :=
  ∀ ⦃c s⦄, c.finish.kind = .eof → s.pending <:+ tokens → Reply.Agree tokens V (p c s) (p' c s)

variable {tokens : List Token} {V : α → β → Prop} {p q : Parser α} {p' q' : Parser β}

theorem runs_pure {a : α} {b : β} (h : V a b) : Runs tokens V (pure a) (pure b) :=
  fun _ _ _ hs => .ok h hs

theorem runs_fail (f : Fault) : Runs tokens V (Parser.fail f) (Parser.fail f) :=
  fun _ _ _ hs => .error hs

theorem runs_reject (k : Cause) (pos : Position) :
    Runs tokens V (Parser.reject k pos) (Parser.reject k pos) :=
  runs_fail _

theorem runs_report (k : Cause) (pos : Position) :
    Runs tokens (fun _ _ => True) (Parser.report k pos) (Parser.report k pos) :=
  fun _ _ _ hs => .ok trivial hs

theorem runs_bind {α' β' : Type} {U : α' → β' → Prop} {f : α → Parser α'} {f' : β → Parser β'}
    (hp : Runs tokens V p p') (hf : ∀ a b, V a b → Runs tokens U (f a) (f' b)) :
    Runs tokens U (p >>= f) (p' >>= f') := by
  intro c s hc hs
  have hrun := hp hc hs
  rw [Parser.bind_apply, Parser.bind_apply]
  generalize p c s = r at hrun
  generalize p' c s = r' at hrun
  cases hrun with
  | ok h ht => exact hf _ _ h hc ht
  | error ht => exact .error ht

theorem runs_within {f : Context → Context} (hf : Context.IsChange f) (hp : Runs tokens V p p') :
    Runs tokens V (Parser.within f p) (Parser.within f p') := by
  intro c s hc hs
  refine hp ?_ hs
  cases hf <;> exact hc

theorem runs_advance : Runs tokens (Token.Alike .equal) Parser.advance Parser.advance := by
  intro c s _ hs
  rw [Parser.advance_eq_ok.2 ⟨rfl, rfl⟩]
  exact .ok (Alignment.token_alike _) ((List.tail_suffix _).trans hs)

theorem runs_context {f : Context → Parser α} {f' : Context → Parser β}
    (hf : ∀ c, Runs tokens V (f c) (f' c)) :
    Runs tokens V (Parser.context >>= f) (Parser.context >>= f') :=
  fun _ _ hc hs => hf _ hc hs

theorem runs_ite {P : Prop} [Decidable P] (hp : Runs tokens V p p') (hq : Runs tokens V q q') :
    Runs tokens V (if P then p else q) (if P then p' else q') := by
  split
  · exact hp
  · exact hq

/-! Checks of words. -/

theorem runs_checkUnreserved (word : String) (pos : Position) :
    Runs tokens (fun _ _ => True) (Parser.checkUnreserved word pos)
      (Parser.checkUnreserved word pos) :=
  runs_context fun _ => runs_ite (runs_reject _ _) (runs_ite (runs_reject _ _)
    (runs_ite (runs_reject _ _) (runs_ite (runs_report _ _) (runs_pure trivial))))

theorem runs_checkIfNever (i : Ident) :
    Runs tokens (fun _ _ => True) (Parser.checkIfNever i) (Parser.checkIfNever i) :=
  runs_context fun _ => runs_ite (runs_checkUnreserved _ _) (runs_pure trivial)

theorem runs_checkDelete {t t' : Token} {n n' : Node} (ht : t.Alike .equal t')
    (hn : n.Alike .equal n') :
    Runs tokens (fun _ _ => True) (Grammar.checkDelete t n) (Grammar.checkDelete t' n') := by
  have hpos : t.pos = t'.pos := ht.pos
  refine runs_context fun c => ?_
  rw [← hn.isIdentifier, ← hn.isPrivateAccess, ← hpos]
  exact runs_ite (runs_reject _ _) (runs_ite (runs_reject _ _) (runs_pure trivial))

/-! Private names. -/

theorem runs_onScope (op : Scope → Scope.Attempt) :
    Runs tokens (fun _ _ => True) (Parser.onScope op) (Parser.onScope op) := by
  intro c s _ hs
  unfold Parser.onScope
  split
  · exact .ok trivial hs
  · exact .error hs
  · exact .error hs

theorem runs_inClassBody (hp : Runs tokens V p p') :
    Runs tokens V (Parser.inClassBody p) (Parser.inClassBody p') := by
  intro c s hc hs
  have hbody := @hp c { s with scope := s.scope.enter } hc hs
  unfold Parser.inClassBody
  generalize p c { s with scope := s.scope.enter } = r at hbody
  generalize p' c { s with scope := s.scope.enter } = r' at hbody
  cases hbody with
  | ok h ht => exact runs_bind (runs_onScope _) (fun _ _ _ => runs_pure h) hc ht
  | error ht => exact .error ht

end Range

/-- Runs among the tokens are a likeness, so no rule leaves them. -/
def Likeness.range (tokens : List Token) : Likeness .equal where
  runs := Range.Runs tokens
  streams ts ts' := ts = ts' ∧ ts <:+ tokens
  streams_alike := (Alignment.inside tokens).alike
  pure := Range.runs_pure
  bind := Range.runs_bind
  exhausted := fun _ hs => .error hs
  unreadable := fun _ hs => .error hs
  reject h := by
    cases h.eq
    exact Range.runs_reject _ _
  report _ hp := by
    cases hp
    exact Range.runs_report _ _
  context := fun _ _ _ hs => .ok ⟨rfl, rfl, Alignment.token_alike _, rfl, rfl, rfl, rfl, rfl⟩ hs
  within := Range.runs_within
  peek := fun _ _ _ hs => .ok (Alignment.token_alike _) hs
  peekAt n := fun _ _ _ hs => .ok (Alignment.token_alike _) hs
  advance := Range.runs_advance
  pending := fun _ _ _ hs => .ok ⟨rfl, hs⟩ hs
  restore := by
    rintro ts _ ⟨rfl, hts⟩ c s _ _
    exact .ok trivial hts
  checkUnreserved word _ _ hp := by
    cases hp
    exact Range.runs_checkUnreserved word _
  checkIfNever hi := by
    cases hi.eq
    exact Range.runs_checkIfNever _
  checkPrivate hi := by
    cases hi.eq
    exact Range.runs_checkIfNever _
  checkDelete := Range.runs_checkDelete
  use hw hp := by
    cases hw
    cases hp
    exact Range.runs_onScope _
  declare hw hp := by
    cases hw
    cases hp
    exact Range.runs_onScope _
  inClassBody := Range.runs_inClassBody

end JsClass
