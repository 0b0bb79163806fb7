import JsClass.Proofs.Likeness.Alignment
import JsClass.Proofs.Likeness.Range

/-!
A lax run beside a strict one. The strict run checks more words and refuses more of them, and it
differs in nothing else: wherever it succeeds, the lax run has come to the same place, with the same
values and with some of the problems that the strict run has recorded.
-/
namespace JsClass

/-- How much a policy checks. Only the last step can refuse a text. -/
def ReservedPolicy.rank : ReservedPolicy → Nat
  | .allowed => 0
  | .forbidden | .numeric _ => 1
  | .never => 2

namespace ReservedPolicy

variable {policy policy' : ReservedPolicy}

theorem eq_never_of_le (h : policy.rank ≤ policy'.rank) (hnever : policy = .never) :
    policy' = .never := by
  subst hnever
  cases policy' <;> simp [rank] at h ⊢

theorem ne_allowed_of_le (h : policy.rank ≤ policy'.rank) (hne : policy ≠ .allowed) :
    policy' ≠ .allowed := by
  rintro rfl
  cases policy <;> simp [rank] at h hne

end ReservedPolicy

/-- Options of which the second ones are at least as strict as the first ones. -/
structure Options.Laxer (o o' : Options) : Prop where
  edition : o.edition = o'.edition
  policy : o.reserved.rank ≤ o'.reserved.rank
  sourceType : o.sourceType = .module → o'.sourceType = .module

/-- Options that refuse the same texts. -/
def Options.RefuseSame (o o' : Options) : Prop :=
  o.sourceType = o'.sourceType ∧ (o.reserved = .never ↔ o'.reserved = .never)

namespace Leniency

variable {same : Prop}

/-- The same place under options that are laxer. If `same` is so, they refuse the same texts. -/
structure Contexts (same : Prop) (c c' : Context) : Prop where
  rest : c' = { c with
    options := { c.options with
      reserved := c'.options.reserved
      sourceType := c'.options.sourceType }
    strict := c'.strict }
  policy : c.options.reserved.rank ≤ c'.options.reserved.rank
  strict : c.strict = true → c'.strict = true
  exactly : same →
    c.strict = c'.strict ∧ (c.options.reserved = .never ↔ c'.options.reserved = .never)

/-- The same tokens to come and the same private names, with fewer problems recorded. -/
structure States (s s' : State) : Prop where
  pending : s.pending = s'.pending
  reported : s.reported.Sublist s'.reported
  scope : s.scope = s'.scope

/-- The lax run succeeds where the strict one does, and ends with the same fault if `same` is
so. -/
inductive Replies {α β : Type} (same : Prop) (V : α → β → Prop) : Reply α → Reply β → Prop
  | ok {a b s s'} (h : V a b) (hs : States s s') : Replies same V (.ok a s) (.ok b s')
  | error {r f s'} (h : same → ∃ s, r = .error f s) : Replies same V r (.error f s')

/-- Rules that keep side by side wherever they begin side by side. -/
def Runs {α β : Type} (same : Prop) (V : α → β → Prop) (p : Parser α) (p' : Parser β) : Prop :=
  ∀ ⦃c c' s s'⦄, Contexts same c c' → States s s' → Replies same V (p c s) (p' c' s')

variable {α β : Type} {V : α → β → Prop} {p q : Parser α} {p' q' : Parser β} {c c' : Context}
  {s s' : State}

theorem Contexts.alike (h : Contexts same c c') : c.Alike .equal c' := by
  rw [h.rest]
  exact ⟨rfl, rfl, Alignment.token_alike _, rfl, rfl, rfl, rfl, rfl⟩

theorem Contexts.change (h : Contexts same c c') {f : Context → Context}
    (hf : Context.IsChange f) : Contexts same (f c) (f c') := by
  obtain ⟨hrest, hpolicy, hstrict, hexactly⟩ := h
  rw [hrest]
  cases hf with
  | strict => exact ⟨rfl, hpolicy, fun _ => rfl, fun h => ⟨rfl, (hexactly h).2⟩⟩
  | function | arrow | privateMethod | staticField => exact ⟨rfl, hpolicy, hstrict, hexactly⟩

/-- What is reserved in the lax run is reserved in the strict one. -/
theorem Contexts.isReserved (h : Contexts same c c') {word : String}
    (hword : c.isReserved word = true) : c'.isReserved word = true := by
  simp only [Context.isReserved, Bool.or_eq_true, Bool.and_eq_true, bne_iff_ne] at hword ⊢
  rcases hword with ⟨hne, hmem⟩ | ⟨hstrict, hmem⟩
  · exact Or.inl ⟨ReservedPolicy.ne_allowed_of_le h.policy hne, hmem⟩
  · exact Or.inr ⟨h.strict hstrict, hmem⟩

theorem next_eq (hc : Contexts same c c') (hs : States s s') : c'.next s' = c.next s := by
  rw [hc.rest, Context.next, Context.next, hs.pending]

theorem runs_pure {a : α} {b : β} (h : V a b) : Runs same V (pure a) (pure b) :=
  fun _ _ _ _ _ hs => .ok h hs

theorem runs_fail (f : Fault) : Runs same V (Parser.fail f) (Parser.fail f) :=
  fun _ _ s _ _ _ => .error fun _ => ⟨s, rfl⟩

theorem runs_reject (k : Cause) (pos : Position) :
    Runs same V (Parser.reject k pos) (Parser.reject k pos) :=
  runs_fail _

theorem runs_report (k : Cause) (pos : Position) :
    Runs same (fun _ _ => True) (Parser.report k pos) (Parser.report k pos) :=
  fun _ _ _ _ _ hs => .ok trivial ⟨hs.pending, hs.reported.append_right _, hs.scope⟩

/-- A problem that only the strict run records. -/
theorem runs_report_strict (k : Cause) (pos : Position) :
    Runs same (fun _ _ => True) (pure ()) (Parser.report k pos) :=
  fun _ _ _ _ _ hs => .ok trivial
    ⟨hs.pending, hs.reported.trans (List.sublist_append_left _ _), hs.scope⟩

/-- A problem that only the strict run ends with. -/
theorem runs_reject_strict (hsame : ¬ same) (k : Cause) (pos : Position) :
    Runs same V p (Parser.reject k pos : Parser β) :=
  fun _ _ _ _ _ _ => .error fun h => absurd h hsame

theorem runs_bind {α' β' : Type} {U : α' → β' → Prop} {f : α → Parser α'} {f' : β → Parser β'}
    (hp : Runs same V p p') (hf : ∀ a b, V a b → Runs same U (f a) (f' b)) :
    Runs same U (p >>= f) (p' >>= f') := by
  intro c c' s s' hc hs
  have hrun := hp hc hs
  rw [Parser.bind_apply, Parser.bind_apply]
  generalize p c s = r at hrun
  generalize p' c' s' = r' at hrun
  cases hrun with
  | ok h ht => exact hf _ _ h hc ht
  | error h =>
    refine .error fun hsame => ?_
    obtain ⟨t, rfl⟩ := h hsame
    exact ⟨t, rfl⟩

theorem runs_advance : Runs same (Token.Alike .equal) Parser.advance Parser.advance := by
  intro c c' s s' hc hs
  rw [Parser.advance_eq_ok.2 ⟨rfl, rfl⟩, Parser.advance_eq_ok.2 ⟨rfl, rfl⟩, next_eq hc hs]
  exact .ok (Alignment.token_alike _)
    ⟨congrArg List.tail hs.pending, hs.reported, hs.scope⟩

theorem runs_peekAt (n : Nat) :
    Runs same (Token.Alike .equal) (Parser.peekAt n) (Parser.peekAt n) := by
  intro c c' s s' hc hs
  have hseen : (s'.pending.drop n).headD c'.finish = (s.pending.drop n).headD c.finish := by
    rw [hc.rest, hs.pending]
  unfold Parser.peekAt
  rw [hseen]
  exact .ok (Alignment.token_alike _) hs

theorem runs_peek : Runs same (Token.Alike .equal) Parser.peek Parser.peek := by
  intro c c' s s' hc hs
  have hrun := runs_peekAt 0 hc hs
  exact hrun

theorem runs_within {f : Context → Context} (hf : Context.IsChange f) (hp : Runs same V p p') :
    Runs same V (Parser.within f p) (Parser.within f p') :=
  fun _ _ _ _ hc hs => hp (hc.change hf) hs

theorem runs_context {f : Context → Parser α} {f' : Context → Parser β}
    (hf : ∀ c c', Contexts same c c' → Runs same V (f c) (f' c')) :
    Runs same V (Parser.context >>= f) (Parser.context >>= f') :=
  fun _ _ _ _ hc hs => hf _ _ hc hc hs

theorem runs_ite {P : Prop} [Decidable P] (hp : P → Runs same V p p')
    (hq : ¬ P → Runs same V q q') :
    Runs same V (if P then p else q) (if P then p' else q') := by
  split
  · exact hp ‹_›
  · exact hq ‹_›

/-- A question that only the strict run asks. -/
theorem runs_ite_strict {P : Prop} [Decidable P] (hp : P → Runs same V p p')
    (hq : ¬ P → Runs same V p q') : Runs same V p (if P then p' else q') := by
  split
  · exact hp ‹_›
  · exact hq ‹_›

/-! Checks of words. -/

/-- The checks go the same way until a word is reserved in the strict run only. -/
theorem runs_checkUnreserved (word : String) (pos : Position) :
    Runs same (fun _ _ => True) (Parser.checkUnreserved word pos)
      (Parser.checkUnreserved word pos) := by
  refine runs_context fun c c' hc => ?_
  have hgenerator : c'.inGenerator = c.inGenerator := by rw [hc.rest]
  have hasync : c'.inAsync = c.inAsync := by rw [hc.rest]
  rw [hgenerator, hasync]
  refine runs_ite (fun _ => runs_reject _ _) fun _ => runs_ite (fun _ => runs_reject _ _)
    fun _ => runs_ite (fun _ => runs_reject _ _) fun _ => ?_
  by_cases hlax : c.isReserved word = true
  · rw [if_pos hlax, if_pos (hc.isReserved hlax)]
    exact runs_report _ _
  · rw [if_neg hlax]
    exact runs_ite_strict (fun _ => runs_report_strict _ _) fun _ => runs_pure trivial

/-- In the strict run alone a word may be refused, unless both runs refuse the same. -/
theorem runs_checkUnreserved_strict (hsame : ¬ same) (word : String) (pos : Position) :
    Runs same (fun _ _ => True) (pure ()) (Parser.checkUnreserved word pos) := by
  intro c c' s s' hc hs
  refine runs_ite_strict (fun _ => runs_reject_strict hsame _ _) (fun _ => ?_) hc hs
  refine runs_ite_strict (fun _ => runs_reject_strict hsame _ _) fun _ => ?_
  refine runs_ite_strict (fun _ => runs_reject_strict hsame _ _) fun _ => ?_
  exact runs_ite_strict (fun _ => runs_report_strict _ _) fun _ => runs_pure trivial

theorem runs_checkIfNever (i : Ident) :
    Runs same (fun _ _ => True) (Parser.checkIfNever i) (Parser.checkIfNever i) := by
  refine runs_context fun c c' hc => ?_
  by_cases hlax : c.options.reserved = .never
  · have hstrict := ReservedPolicy.eq_never_of_le hc.policy hlax
    rw [if_pos (by simpa using hlax), if_pos (by simpa using hstrict)]
    exact runs_checkUnreserved _ _
  · rw [if_neg (by simpa using hlax)]
    split
    · next hstrict =>
      refine runs_checkUnreserved_strict (fun hsame => hlax ?_) _ _
      exact (hc.exactly hsame).2.2 (by simpa using hstrict)
    · exact runs_pure trivial

theorem runs_checkDelete {t t' : Token} {n n' : Node} (ht : t.Alike .equal t')
    (hn : n.Alike .equal n') :
    Runs same (fun _ _ => True) (Grammar.checkDelete t n) (Grammar.checkDelete t' n') := by
  have hpos : t.pos = t'.pos := ht.pos
  refine runs_context fun c c' hc => ?_
  rw [← hn.isIdentifier, ← hn.isPrivateAccess, ← hpos]
  have hprivate : Runs same (fun _ _ => True)
      (if n.isPrivateAccess then Parser.reject .deleteOfPrivate t.pos else pure ())
      (if n.isPrivateAccess then Parser.reject .deleteOfPrivate t.pos else pure ()) :=
    runs_ite (fun _ => runs_reject _ _) fun _ => runs_pure trivial
  by_cases hstrict : c.strict = c'.strict
  · rw [← hstrict]
    exact runs_ite (fun _ => runs_reject _ _) fun _ => hprivate
  · -- the strict run alone refuses to delete a variable
    have hlax : ¬ c.strict = true := fun h => hstrict (h.trans (hc.strict h).symm)
    have hsame : ¬ same := fun h => hstrict (hc.exactly h).1
    rw [if_neg (by simp [hlax])]
    exact runs_ite_strict (fun _ => runs_reject_strict hsame _ _) fun _ => hprivate

/-! Private names. -/

theorem runs_onScope (op : Scope → Scope.Attempt) :
    Runs same (fun _ _ => True) (Parser.onScope op) (Parser.onScope op) := by
  intro c c' s s' hc hs
  unfold Parser.onScope
  rw [hs.scope]
  split
  · exact .ok trivial ⟨hs.pending, hs.reported, rfl⟩
  · exact .error fun _ => ⟨_, rfl⟩
  · exact .error fun _ => ⟨_, rfl⟩

theorem runs_inClassBody (hp : Runs same V p p') :
    Runs same V (Parser.inClassBody p) (Parser.inClassBody p') := by
  intro c c' s s' hc hs
  have hbody := @hp c c' { s with scope := s.scope.enter } { s' with scope := s'.scope.enter } hc
    ⟨hs.pending, hs.reported, congrArg Scope.enter hs.scope⟩
  unfold Parser.inClassBody
  generalize p c { s with scope := s.scope.enter } = r at hbody
  generalize p' c' { s' with scope := s'.scope.enter } = r' at hbody
  cases hbody with
  | ok h ht => exact runs_bind (runs_onScope _) (fun _ _ _ => runs_pure h) hc ht
  | error h =>
    refine .error fun hsame => ?_
    obtain ⟨t, rfl⟩ := h hsame
    exact ⟨_, rfl⟩

end Leniency

/-- A lax run beside a strict one is a likeness, so all rules keep side by side. -/
def Likeness.leniency (same : Prop) : Likeness .equal where
  runs := Leniency.Runs same
  streams ts ts' := ts = ts'
  streams_alike := Token.forall₂_alike_of_eq
  pure := Leniency.runs_pure
  bind := Leniency.runs_bind
  exhausted := @fun _ _ _ => Leniency.runs_fail _
  unreadable := @fun _ _ _ => Leniency.runs_fail _
  reject h := by
    cases h.eq
    exact Leniency.runs_reject _ _
  report _ hp := by
    cases hp
    exact Leniency.runs_report _ _
  context := fun _ _ _ _ hc hs => .ok hc.alike hs
  within := Leniency.runs_within
  peek := Leniency.runs_peek
  peekAt := Leniency.runs_peekAt
  advance := Leniency.runs_advance
  pending := fun _ _ _ _ _ hs => .ok hs.pending hs
  restore := fun h _ _ _ _ _ hs => .ok trivial ⟨h, hs.reported, hs.scope⟩
  checkUnreserved word _ _ hp := by
    cases hp
    exact Leniency.runs_checkUnreserved word _
  checkIfNever hi := by
    cases hi.eq
    exact Leniency.runs_checkIfNever _
  checkPrivate hi := by
    cases hi.eq
    exact Leniency.runs_checkIfNever _
  checkDelete := Leniency.runs_checkDelete
  use hw hp := by
    cases hw
    cases hp
    exact Leniency.runs_onScope _
  declare hw hp := by
    cases hw
    cases hp
    exact Leniency.runs_onScope _
  inClassBody := Leniency.runs_inClassBody

end JsClass
