import JsClass.Proofs.Safety.Basic

/-!
Runs with more behind them. A rule that succeeds on some tokens succeeds in the same way if more
tokens stand behind them, as long as it does not look at these. Where it has seen the end of input
before, it may see a semicolon now, and a statement that ended there takes it.
-/
namespace JsClass

variable {α β σ : Type} {c : Context} {s t : State}

/-- What may stand behind a statement. -/
def Kind.EndsStatement (k : Kind) : Prop := k = .eof ∨ k = .punct .semicolon

/-- What stands behind the tokens of a run instead of its end of input, and what was recorded
before it. -/
structure Sequel where
  tail : List Token
  finish : Token
  earlier : List Diagnostic
  ends : (tail.headD finish).kind.EndsStatement
  noElse : (tail.tail.headD finish).kind ≠ .keyword .else_

namespace Sequel

variable {q : Sequel}

/-- The token behind those of the run. -/
def head (q : Sequel) : Token := q.tail.headD q.finish

theorem head_ends (q : Sequel) : q.head.kind.EndsStatement := q.ends

/-- The place of the longer run. -/
def context (q : Sequel) (c : Context) : Context := { c with finish := q.finish }

theorem context_dialect (q : Sequel) (c : Context) : (q.context c).dialect = c.dialect := rfl

/-- The state of the longer run. -/
def state (q : Sequel) (s : State) : State :=
  ⟨s.pending ++ q.tail, q.earlier ++ s.reported, s.scope⟩

theorem next_nil (hs : s.pending = []) : (q.context c).next (q.state s) = q.head := by
  simp [Context.next, state, context, head, hs]

theorem next_state (hs : s.pending ≠ []) : (q.context c).next (q.state s) = c.next s := by
  cases hp : s.pending with
  | nil => exact absurd hp hs
  | cons x rest => simp [Context.next, state, hp]

theorem skip_state (hs : s.pending ≠ []) : (q.state s).skip = q.state s.skip := by
  cases hp : s.pending with
  | nil => exact absurd hp hs
  | cons x rest => simp [State.skip, state, hp]

/-- A token that is there is seen in the longer run as well. -/
theorem drop_state {k : Nat} (hk : k < s.pending.length) :
    ((q.state s).pending.drop k).headD (q.context c).finish =
      (s.pending.drop k).headD c.finish := by
  have hdrop : s.pending.drop k ≠ [] := by
    rw [ne_eq, List.drop_eq_nil_iff]
    omega
  rw [state, List.drop_append_of_le_length (Nat.le_of_lt hk)]
  cases hp : s.pending.drop k with
  | nil => exact absurd hp hdrop
  | cons x rest => rfl

/-- Where the tokens of the run are used up, the sequel begins. -/
theorem drop_length : ((q.state s).pending.drop s.pending.length).headD (q.context c).finish =
    q.head := by
  simp [state, context, head]

/-- A test that takes all that may stand behind a statement for the same. -/
theorem drop_test {P : Token → α} {a : α} {k : Nat} (hP : ∀ z, z.kind.EndsStatement → P z = a)
    (hc : c.finish.kind = .eof) (hk : k ≤ s.pending.length) :
    P (((q.state s).pending.drop k).headD (q.context c).finish) =
      P ((s.pending.drop k).headD c.finish) := by
  rcases Nat.lt_or_eq_of_le hk with hk | rfl
  · rw [drop_state hk]
  · rw [drop_length, List.drop_length, List.headD_nil, hP _ q.head_ends, hP _ (Or.inl hc)]

theorem pending_ne_nil (hc : c.finish.kind = .eof) (hk : (c.next s).kind ≠ .eof) :
    s.pending ≠ [] := by
  rw [Context.pending_eq hc hk]
  exact List.cons_ne_nil _ _

/-- The longer run is where the shorter one is, or it has taken a semicolon that the shorter one
took the end of input for. -/
inductive Resumes (q : Sequel) (e : Prop) (t : State) : State → Prop
  | same : Resumes q e t (q.state t)
  | taken (he : e) (hp : t.pending = []) (hk : q.head.kind = .punct .semicolon) :
    Resumes q e t (q.state t).skip

/-- A run from `s` to `t` only takes tokens, one at least if `T` holds of its value. The longer run
has the same value if enough tokens are left. -/
structure Continues (q : Sequel) (l : α → Nat) (T : α → Prop) (e : Prop) (s : State) (a : α)
    (t : State) (r : Reply α) : Prop where
  suffix : t.pending <:+ s.pending
  takes : T a → t.pending.length < s.pending.length
  resumes : l a ≤ t.pending.length → ∃ u, r = .ok a u ∧ q.Resumes e t u

/-- Where the first rule succeeds, so does the second one with the sequel. That `l a` tokens must
be left makes room for a look at what follows; `e` says whether a semicolon may be taken. -/
def Runs (q : Sequel) (S : Site) (l : α → Nat) (T : α → Prop) (e : Prop) (p p' : Parser α) : Prop :=
  ∀ ⦃c s a t⦄, c.finish.kind = .eof → S c s → p c s = .ok a t →
    q.Continues l T e s a t (p' (q.context c) (q.state s))

/-- Rules that always take a token. -/
abbrev Takes (q : Sequel) (S : Site) (p p' : Parser α) : Prop :=
  q.Runs S (fun _ => 0) (fun _ => True) False p p'

/-- Rules that may take nothing. -/
abbrev Steady (q : Sequel) (S : Site) (p p' : Parser α) : Prop :=
  q.Runs S (fun _ => 0) (fun _ => False) False p p'

/-- Rules that look at the token behind them. -/
abbrev Inner (q : Sequel) (S : Site) (T : α → Prop) (p p' : Parser α) : Prop :=
  q.Runs S (fun _ => 1) T False p p'

/-- Statements. -/
abbrev Ends (q : Sequel) (S : Site) (p p' : Parser α) : Prop :=
  q.Runs S (fun _ => 0) (fun _ => True) True p p'

/-- Looks that see the same in both runs, if `k` tokens are to come. -/
def Looks (q : Sequel) (k : Nat) (p p' : Parser α) : Prop :=
  ∀ ⦃c s⦄, c.finish.kind = .eof → ∃ a, p c s = .ok a s ∧
    (k ≤ s.pending.length → p' (q.context c) (q.state s) = .ok a (q.state s))

namespace Runs

variable {S S' : Site} {l : α → Nat} {m : β → Nat} {T : β → Prop} {U : α → Prop} {e : Prop}
  {p p' x x' y y' : Parser β} {k : Nat}

theorem fails (hp : ∀ c s b t, p c s ≠ .ok b t) : q.Runs S m T e p p' :=
  fun _ _ _ _ _ _ h => absurd h (hp _ _ _ _)

theorem reject (cause : Cause) (pos : Position) : q.Runs S m T e (Parser.reject cause pos) p' :=
  fails fun _ _ _ _ h => Parser.reject_eq_ok.1 h

theorem unexpected (z : Token) : q.Runs S m T e (Parser.unexpected z) p' :=
  fails fun _ _ _ _ h => Parser.unexpected_eq_ok.1 h

theorem unexpectedNext : q.Runs S m T e Parser.unexpectedNext p' :=
  fails fun _ _ _ _ h => Parser.unexpectedNext_eq_ok.1 h

theorem pure {b : β} (hb : ¬ T b) : q.Runs S m T e (Pure.pure b) (Pure.pure b) := by
  intro c s _ t _ _ h
  obtain ⟨rfl, rfl⟩ := Parser.pure_eq_ok.1 h
  exact ⟨List.suffix_rfl, fun hT => absurd hT hb, fun _ => ⟨_, rfl, .same⟩⟩

theorem done {b : β} : q.Runs S m (fun _ => False) e (Pure.pure b) (Pure.pure b) := pure id

theorem site (hp : q.Runs S' m T e p p') (hS : ∀ c s, S c s → S' c s) : q.Runs S m T e p p' :=
  fun _ _ _ _ hc h hrun => hp hc (hS _ _ h) hrun

theorem anyplace (hp : q.Runs .anywhere m T e p p') : q.Runs S m T e p p' :=
  hp.site fun _ _ _ => trivial

/-- What a rule takes may be read off its successful runs. -/
theorem takes_of {T' : β → Prop} (hp : q.Runs S m T' e p p')
    (hT : ∀ {c s b t}, c.finish.kind = .eof → p c s = .ok b t → T b →
      t.pending.length < s.pending.length) : q.Runs S m T e p p' := by
  intro c s b t hc hS h
  have hrun := hp hc hS h
  exact ⟨hrun.suffix, hT hc h, hrun.resumes⟩

/-- How much a rule looks at may be read off its successful runs. -/
theorem left_of {l : β → Nat} (hp : q.Runs S l T e p p')
    (hm : ∀ {c s b t}, p c s = .ok b t → l b ≤ m b) : q.Runs S m T e p p' := by
  intro c s b t hc hS h
  have hrun := hp hc hS h
  exact ⟨hrun.suffix, hrun.takes, fun hleft => hrun.resumes (Nat.le_trans (hm h) hleft)⟩

theorem mono {T' : β → Prop} (hp : q.Runs S m T e p p') (hT : ∀ b, T' b → T b) :
    q.Runs S m T' e p p' := by
  intro c s b t hc hS h
  have hrun := hp hc hS h
  exact ⟨hrun.suffix, fun hb => hrun.takes (hT b hb), hrun.resumes⟩

theorem steady (hp : q.Runs S m T e p p') : q.Runs S m (fun _ => False) e p p' :=
  hp.mono fun _ => False.elim

/-- Where a token is left, no semicolon is taken for the end of input. -/
theorem inside (hp : q.Runs S (fun _ => 0) T e p p') : q.Inner S T p p' := by
  intro c s b t hc hS h
  have hrun := hp hc hS h
  refine ⟨hrun.suffix, hrun.takes, fun hleft => ?_⟩
  obtain ⟨u, hu, hresumes⟩ := hrun.resumes (Nat.zero_le _)
  cases hresumes with
  | same => exact ⟨_, hu, .same⟩
  | taken _ hnil _ => simp [hnil] at hleft

/-- A rule that takes no semicolon is one that may take it. -/
theorem ends (hp : q.Runs S m T False p p') : q.Runs S m T e p p' := by
  intro c s b t hc hS h
  have hrun := hp hc hS h
  refine ⟨hrun.suffix, hrun.takes, fun hleft => ?_⟩
  obtain ⟨u, hu, hresumes⟩ := hrun.resumes hleft
  cases hresumes with
  | same => exact ⟨_, hu, .same⟩
  | taken he => exact he.elim

end Runs

/-! Runs that began before the place they are looked at. -/

namespace Continues

variable {S : Site} {l : α → Nat} {m : β → Nat} {T T' : β → Prop} {U : α → Prop} {e : Prop}
  {f f' : α → Parser β} {r r' : Parser α} {x x' y y' : Parser β} {u : State} {b : β}

/-- What is so from a later state on is so from an earlier one on. -/
theorem behind {w : Reply β} (h : q.Continues m T e u b t w) (hu : u.pending <:+ s.pending)
    (hlt : u.pending.length < s.pending.length) : q.Continues m T' e s b t w :=
  ⟨h.suffix.trans hu, fun _ => Nat.lt_of_le_of_lt h.suffix.length_le hlt, h.resumes⟩

theorem bind_of (hr : q.Runs S l U False r r') (hc : c.finish.kind = .eof) (hS : S c u)
    (h : (r >>= f) c u = .ok b t)
    (hf : ∀ a v, r c u = .ok a v → v.pending <:+ u.pending →
      (U a → v.pending.length < u.pending.length) → f a c v = .ok b t →
      (m b ≤ t.pending.length → l a ≤ v.pending.length) ∧
        q.Continues m T e s b t (f' a (q.context c) (q.state v))) :
    q.Continues m T e s b t ((r' >>= f') (q.context c) (q.state u)) := by
  obtain ⟨a, v, ha, hb⟩ := Parser.bind_eq_ok.1 h
  have hfirst := hr hc hS ha
  obtain ⟨hleft, hrest⟩ := hf a v ha hfirst.suffix hfirst.takes hb
  refine ⟨hrest.suffix, hrest.takes, fun hm => ?_⟩
  obtain ⟨_, ha', ⟨⟩ | ⟨⟨⟩⟩⟩ := hfirst.resumes (hleft hm)
  rw [Parser.bind_apply, ha']
  exact hrest.resumes hm

theorem bind (hr : q.Runs S (fun _ => 0) U False r r') (hc : c.finish.kind = .eof) (hS : S c u)
    (h : (r >>= f) c u = .ok b t)
    (hf : ∀ a v, r c u = .ok a v → v.pending <:+ u.pending →
      (U a → v.pending.length < u.pending.length) → f a c v = .ok b t →
      q.Continues m T e s b t (f' a (q.context c) (q.state v))) :
    q.Continues m T e s b t ((r' >>= f') (q.context c) (q.state u)) :=
  bind_of hr hc hS h fun a v ha hv hlt hb => ⟨fun _ => Nat.zero_le _, hf a v ha hv hlt hb⟩

theorem look {k : Nat} (hr : q.Looks k r r') (hc : c.finish.kind = .eof)
    (hk : k ≤ u.pending.length) (h : (r >>= f) c u = .ok b t)
    (hf : ∀ a, r c u = .ok a u → f a c u = .ok b t →
      q.Continues m T e s b t (f' a (q.context c) (q.state u))) :
    q.Continues m T e s b t ((r' >>= f') (q.context c) (q.state u)) := by
  obtain ⟨a, ha, hsame⟩ := hr (s := u) hc
  rw [Parser.bind_apply, ha] at h
  rw [Parser.bind_apply, hsame hk]
  exact hf a ha h

theorem ite {P : Prop} [Decidable P] (h : (if P then x else y) c u = .ok b t)
    (hx : P → x c u = .ok b t → q.Continues m T e s b t (x' (q.context c) (q.state u)))
    (hy : ¬ P → y c u = .ok b t → q.Continues m T e s b t (y' (q.context c) (q.state u))) :
    q.Continues m T e s b t ((if P then x' else y') (q.context c) (q.state u)) := by
  split
  · next hP =>
    rw [if_pos hP] at h
    exact hx hP h
  · next hP =>
    rw [if_neg hP] at h
    exact hy hP h

end Continues

/-! One rule behind another. -/

namespace Runs

variable {S S' : Site} {l : α → Nat} {m : β → Nat} {T : β → Prop} {U : α → Prop} {e : Prop}
  {p p' x x' y y' : Parser β} {k : Nat}

/-- The first rule must leave what the second one asks for, or the token that this one takes. -/
theorem seq {f f' : α → Parser β} {r r' : Parser α} {V : α → β → Prop} {e' : Prop}
    (hr : q.Runs S l U e' r r') (hf : ∀ a, q.Runs .anywhere m (V a) e (f a) (f' a))
    (hl : ∀ a b, ¬ e' ∧ l a ≤ m b ∨ V a b ∧ l a ≤ m b + 1) (hT : ∀ a b, T b → U a ∨ V a b) :
    q.Runs S m T e (r >>= f) (r' >>= f') := by
  intro c s b t hc hS h
  obtain ⟨a, u, ha, hb⟩ := Parser.bind_eq_ok.1 h
  have hfirst := hr hc hS ha
  have hrest := hf a hc trivial hb
  have hle : t.pending.length ≤ u.pending.length := hrest.suffix.length_le
  refine ⟨hrest.suffix.trans hfirst.suffix, fun hb => ?_, fun hleft => ?_⟩
  · rcases hT a b hb with ha | hb
    · exact Nat.lt_of_le_of_lt hle (hfirst.takes ha)
    · exact Nat.lt_of_lt_of_le (hrest.takes hb) hfirst.suffix.length_le
  · have hleft' : l a ≤ u.pending.length := by
      rcases hl a b with ⟨-, hl⟩ | ⟨hV, hl⟩
      · omega
      · have := hrest.takes hV
        omega
    obtain ⟨v, hv, hresumes⟩ := hfirst.resumes hleft'
    cases hresumes with
    | same =>
      rw [Parser.bind_apply, hv]
      exact hrest.resumes hleft
    | taken he hnil _ =>
      rcases hl a b with ⟨hne, -⟩ | ⟨hV, -⟩
      · exact absurd he hne
      · have := hrest.takes hV
        simp [hnil] at this

section

variable {f f' : α → Parser β} {r r' : Parser α}

theorem bind (hr : q.Runs S (fun _ => 0) U False r r')
    (hf : ∀ a, q.Runs .anywhere m T e (f a) (f' a)) : q.Runs S m T e (r >>= f) (r' >>= f') :=
  seq hr hf (fun _ _ => Or.inl ⟨id, Nat.zero_le _⟩) fun _ _ => Or.inr

/-- Behind a rule that takes a token, the rest need not take another. -/
theorem take {V : β → Prop} (hr : q.Takes S r r') (hf : ∀ a, q.Runs .anywhere m V e (f a) (f' a)) :
    q.Runs S m T e (r >>= f) (r' >>= f') :=
  seq hr hf (fun _ _ => Or.inl ⟨id, Nat.zero_le _⟩) fun _ _ _ => Or.inl trivial

/-- Both rules look at the same number of tokens behind them. Whether the first one takes a token
may depend on its value. -/
theorem also_of (hr : q.Runs S (fun _ => k) U False r r')
    (hf : ∀ a, q.Runs .anywhere (fun _ => k) (fun b => T b ∧ ¬ U a) e (f a) (f' a)) :
    q.Runs S (fun _ => k) T e (r >>= f) (r' >>= f') := by
  refine seq hr hf (fun _ _ => Or.inl ⟨id, Nat.le_refl _⟩) fun a b hb => ?_
  by_cases ha : U a
  · exact Or.inl ha
  · exact Or.inr ⟨hb, ha⟩

theorem also (hr : q.Runs S (fun _ => k) U False r r')
    (hf : ∀ a, q.Runs .anywhere (fun _ => k) T e (f a) (f' a)) :
    q.Runs S (fun _ => k) T e (r >>= f) (r' >>= f') :=
  also_of hr fun a => (hf a).mono fun _ h => h.1

/-- The token that the first rule looks at is taken by the rest. -/
theorem inner {e' : Prop} (hr : q.Runs S (fun _ => k + 1) U e' r r')
    (hf : ∀ a, q.Runs .anywhere (fun _ => k) (fun _ => True) e (f a) (f' a)) :
    q.Runs S (fun _ => k) (fun _ => True) e (r >>= f) (r' >>= f') :=
  seq hr hf (fun _ _ => Or.inr ⟨trivial, Nat.le_refl _⟩) fun _ _ _ => Or.inr trivial

/-- The value that a rule gives does not matter. -/
theorem map {P : Prop} {h : α → β} (hr : q.Runs S (fun _ => k) (fun _ => P) e r r') :
    q.Runs S (fun _ => k) (fun _ => P) e (r >>= fun a => Pure.pure (h a))
      (r' >>= fun a => Pure.pure (h a)) := by
  intro c s b t hc hS hrun
  obtain ⟨a, u, ha, hb⟩ := Parser.bind_eq_ok.1 hrun
  obtain ⟨rfl, rfl⟩ := Parser.pure_eq_ok.1 hb
  have hfirst := hr hc hS ha
  refine ⟨hfirst.suffix, hfirst.takes, fun hleft => ?_⟩
  obtain ⟨v, hv, hresumes⟩ := hfirst.resumes hleft
  rw [Parser.bind_apply, hv]
  exact ⟨v, rfl, hresumes⟩

end

theorem ite {P : Prop} [Decidable P] (hx : P → q.Runs S m T e x x')
    (hy : ¬ P → q.Runs S m T e y y') :
    q.Runs S m T e (if P then x else y) (if P then x' else y') := by
  split
  · exact hx ‹_›
  · exact hy ‹_›

/-! Looks at what comes next. -/

/-- A look that the rest of the rule, with what it takes and leaves, has enough tokens for. -/
theorem look_at {f f' : α → Parser β} {r r' : Parser α} (hr : q.Looks k r r')
    (hk : ∀ b, k ≤ m b ∨ T b ∧ k ≤ m b + 1) (hf : ∀ a, q.Runs S m T e (f a) (f' a)) :
    q.Runs S m T e (r >>= f) (r' >>= f') := by
  intro c s b t hc hS h
  obtain ⟨a, ha, hsame⟩ := hr (s := s) hc
  rw [Parser.bind_apply, ha] at h
  have hrest := hf a hc hS h
  refine ⟨hrest.suffix, hrest.takes, fun hleft => ?_⟩
  have hthere : k ≤ s.pending.length := by
    have hle := hrest.suffix.length_le
    rcases hk b with hk | ⟨hT, hk⟩
    · omega
    · have := hrest.takes hT
      omega
  rw [Parser.bind_apply, hsame hthere]
  exact hrest.resumes hleft

/-- A look that sees the same whatever is to come. -/
theorem look {f f' : α → Parser β} {r r' : Parser α} (hr : q.Looks 0 r r')
    (hf : ∀ a, q.Runs S m T e (f a) (f' a)) : q.Runs S m T e (r >>= f) (r' >>= f') :=
  look_at hr (fun _ => Or.inl (Nat.zero_le _)) hf

theorem context {f f' : Context → Parser β} (hf : ∀ d, q.Runs S m T e (f d) (f' (q.context d))) :
    q.Runs S m T e (Parser.context >>= f) (Parser.context >>= f') :=
  fun _ _ _ _ hc hS h => hf _ hc hS h

/-- All tokens to come, which rules keep to go back to them. -/
theorem pending {f f' : List Token → Parser β}
    (hf : ∀ before, q.Runs (fun _ s => s.pending = before) m T e (f before)
      (f' (before ++ q.tail))) :
    q.Runs S m T e (Parser.pending >>= f) (Parser.pending >>= f') :=
  fun _ _ _ _ hc _ h => hf _ hc rfl h

/-- Both runs see a token that is there. -/
theorem peek_at {f f' : Token → Parser β} (hm : ∀ b, 0 < m b ∨ T b)
    (hf : ∀ z, q.Runs (.before z) m T e (f z) (f' z)) :
    q.Runs S m T e (Parser.peek >>= f) (Parser.peek >>= f') := by
  intro c s b t hc _ h
  have hrest := hf (c.next s) hc rfl h
  refine ⟨hrest.suffix, hrest.takes, fun hleft => ?_⟩
  have hs : s.pending ≠ [] := by
    intro hnil
    have hle := hrest.suffix.length_le
    rcases hm b with hm | hT
    · simp [hnil] at hle
      simp [hle] at hleft
      omega
    · simpa [hnil] using hrest.takes hT
  show ∃ u, f' ((q.context c).next (q.state s)) _ _ = _ ∧ _
  rw [next_state hs]
  exact hrest.resumes hleft

/-- A look before a token is taken. -/
theorem peek {f f' : Token → Parser β}
    (hf : ∀ z, q.Runs (.before z) m (fun _ => True) e (f z) (f' z)) :
    q.Runs S m (fun _ => True) e (Parser.peek >>= f) (Parser.peek >>= f') :=
  peek_at (fun _ => Or.inr trivial) hf

/-- A look where a token is left. -/
theorem peek_inner {f f' : Token → Parser β}
    (hf : ∀ z, q.Runs (.before z) (fun _ => k + 1) T e (f z) (f' z)) :
    q.Runs S (fun _ => k + 1) T e (Parser.peek >>= f) (Parser.peek >>= f') :=
  peek_at (fun _ => Or.inl (Nat.succ_pos k)) hf

/-- A look at what may be the end. -/
theorem glance {f f' : Token → Parser β} (hf : ∀ z, q.Runs (.before z) m T e (f z) (f' z))
    (hend : ∀ w z, w.kind = .eof → z.kind.EndsStatement → q.Runs .anywhere m T e (f w) (f' z)) :
    q.Runs S m T e (Parser.peek >>= f) (Parser.peek >>= f') := by
  intro c s b t hc _ h
  show q.Continues m T e s b t (f' ((q.context c).next (q.state s)) _ _)
  by_cases hs : s.pending = []
  · rw [next_nil hs]
    exact hend (c.next s) _ (by simp [Context.next, hs, hc]) q.head_ends hc trivial h
  · rw [next_state hs]
    exact hf (c.next s) hc rfl h

end Runs

/-! Looks. -/

namespace Looks

variable {k : Nat} {r r' : Parser α} {f f' : α → Parser β}

theorem pure (b : β) : q.Looks k (Pure.pure b) (Pure.pure b) := fun _ _ _ => ⟨b, rfl, fun _ => rfl⟩

theorem bind (hr : q.Looks k r r') (hf : ∀ a, q.Looks k (f a) (f' a)) :
    q.Looks k (r >>= f) (r' >>= f') := by
  intro c s hc
  obtain ⟨a, ha, ha'⟩ := hr (s := s) hc
  obtain ⟨b, hb, hb'⟩ := hf a (s := s) hc
  refine ⟨b, ?_, fun hk => ?_⟩
  · rw [Parser.bind_apply, ha]
    exact hb
  · rw [Parser.bind_apply, ha' hk]
    exact hb' hk

theorem mono {k' : Nat} (hr : q.Looks k r r') (hk : k ≤ k') : q.Looks k' r r' := by
  intro c s hc
  obtain ⟨a, ha, hsame⟩ := hr (s := s) hc
  exact ⟨a, ha, fun hk' => hsame (Nat.le_trans hk hk')⟩

theorem context {f f' : Context → Parser β} (hf : ∀ d, q.Looks k (f d) (f' (q.context d))) :
    q.Looks k (Parser.context >>= f) (Parser.context >>= f') :=
  fun _ _ hc => hf _ hc

theorem peekAt (n : Nat) : q.Looks (n + 1) (Parser.peekAt n) (Parser.peekAt n) := by
  refine fun c s _ => ⟨_, rfl, fun hn => ?_⟩
  show Reply.ok _ _ = _
  rw [drop_state hn]

theorem peek : q.Looks 1 Parser.peek Parser.peek := peekAt 0

/-- A test that takes all that may stand behind a statement for the same may also see the first
token of the sequel. -/
theorem test {f : Token → Parser β} {p : Parser β} (hp : ∀ z, z.kind.EndsStatement → f z = p)
    (hf : ∀ z, q.Looks 0 (f z) (f z)) (n : Nat) :
    q.Looks n (Parser.peekAt n >>= f) (Parser.peekAt n >>= f) := by
  intro c s hc
  obtain ⟨b, hb, hsame⟩ := hf ((s.pending.drop n).headD c.finish) (s := s) hc
  refine ⟨b, hb, fun hn => ?_⟩
  rw [← hsame (Nat.zero_le _), ← drop_test hp hc hn]
  rfl

/-- A look at what may be the end. -/
theorem glance {f f' : Token → Parser β} (hf : ∀ z, q.Looks 1 (f z) (f' z))
    (hend : ∀ w z, w.kind = .eof → z.kind.EndsStatement → q.Looks 0 (f w) (f' z)) :
    q.Looks 0 (Parser.peek >>= f) (Parser.peek >>= f') := by
  intro c s hc
  show ∃ b, f (c.next s) c s = .ok b s ∧ (0 ≤ _ → f' ((q.context c).next (q.state s)) _ _ = _)
  by_cases hs : s.pending = []
  · rw [next_nil hs]
    exact hend (c.next s) _ (by simp [Context.next, hs, hc]) q.head_ends hc
  · rw [next_state hs]
    obtain ⟨b, hb, hsame⟩ := hf (c.next s) (s := s) hc
    exact ⟨b, hb, fun _ => hsame (List.length_pos_iff.2 hs)⟩

/-- A look at a kind that does not end statements. -/
theorem checkKind {k : Kind} (hk : ¬ k.EndsStatement) :
    q.Looks 0 (Parser.checkKind k) (Parser.checkKind k) := by
  refine test (f := fun z => Pure.pure (z.kind == k)) (p := Pure.pure false) (fun z hz => ?_)
    (fun _ => pure _) 0
  have hne : (z.kind == k) = false := by
    rw [beq_eq_false_iff_ne]
    rintro rfl
    exact hk hz
  rw [hne]

theorem check {p : Punct} (hp : p ≠ .semicolon) : q.Looks 0 (Parser.check p) (Parser.check p) :=
  checkKind (by simpa [Kind.EndsStatement] using hp)

theorem check_inner (p : Punct) : q.Looks 1 (Parser.check p) (Parser.check p) :=
  bind peek fun _ => pure _

theorem atEnd : q.Looks 1 Parser.atEnd Parser.atEnd := bind peek fun _ => pure _

theorem canInsertSemicolon : q.Looks 1 Parser.canInsertSemicolon Parser.canInsertSemicolon :=
  bind peek fun _ => pure _

end Looks

namespace Runs

variable {S S' : Site} {l : α → Nat} {m : β → Nat} {T V : β → Prop} {e : Prop}
  {p p' x x' y y' : Parser β}

/-- A look that shows whether the token comes next. -/
theorem checkKind {k : Kind} {f f' : Bool → Parser β} (hk : ¬ k.EndsStatement)
    (hf : ∀ b, q.Runs (fun c s => b = true → (c.next s).kind = k) m T e (f b) (f' b)) :
    q.Runs S m T e (Parser.checkKind k >>= f) (Parser.checkKind k >>= f') := by
  intro c s b t hc _ h
  refine Continues.look (Looks.checkKind hk) hc (Nat.zero_le _) h fun a ha hb => ?_
  obtain ⟨rfl, -⟩ := Parser.checkKind_eq_ok.1 ha
  exact hf _ hc beq_iff_eq.1 hb

/-! Steps that take a token. -/

theorem advance_filled : q.Takes .filled Parser.advance Parser.advance := by
  intro c s z t hc hS h
  obtain ⟨rfl, rfl⟩ := Parser.advance_eq_ok.1 h
  have hs := pending_ne_nil hc hS
  refine ⟨s.passes_skip.pending, fun _ => (Context.next_mem hc hS).2, fun _ => ⟨_, ?_, .same⟩⟩
  rw [Parser.advance_apply, next_state hs, skip_state hs]

theorem advance {f f' : Token → Parser β} {z : Token} (hz : z.kind ≠ .eof)
    (hf : ∀ w, q.Runs .anywhere m V e (f w) (f' w)) :
    q.Runs (.before z) m T e (Parser.advance >>= f) (Parser.advance >>= f') :=
  take (advance_filled.site fun _ _ => Site.filled_of_before hz) hf

theorem advance_inner : q.Inner S (fun _ => False) Parser.advance Parser.advance := by
  intro c s z t hc hS h
  obtain ⟨rfl, rfl⟩ := Parser.advance_eq_ok.1 h
  refine ⟨s.passes_skip.pending, False.elim, fun hleft => ⟨_, ?_, .same⟩⟩
  have hs : s.pending ≠ [] :=
    List.length_pos_iff.1 (Nat.lt_of_lt_of_le hleft s.passes_skip.length_le)
  rw [Parser.advance_apply, next_state hs, skip_state hs]

theorem expectKind {k : Kind} (hk : k ≠ .eof) :
    q.Takes S (Parser.expectKind k) (Parser.expectKind k) := by
  intro c s z t hc hS h
  obtain ⟨hnext, rfl, rfl⟩ := Parser.expectKind_eq_ok.1 h
  have hne : (c.next s).kind ≠ .eof := hnext ▸ hk
  have hs := pending_ne_nil hc hne
  refine ⟨s.passes_skip.pending, fun _ => (Context.next_mem hc hne).2, fun _ => ⟨_, ?_, .same⟩⟩
  refine Parser.expectKind_eq_ok.2 ?_
  rw [next_state hs, skip_state hs]
  exact ⟨hnext, rfl, rfl⟩

theorem expect (p : Punct) : q.Takes S (Parser.expect p) (Parser.expect p) :=
  expectKind (by simp)

theorem expectKeyword (k : Keyword) : q.Takes S (Parser.expectKeyword k) (Parser.expectKeyword k) :=
  expectKind (by simp)

/-- Where a token is to come, it is taken in both runs or in none. -/
theorem acceptKind_state {k : Kind} (hs : s.pending ≠ []) {b : Bool}
    (h : Parser.acceptKind k c s = .ok b t) :
    Parser.acceptKind k (q.context c) (q.state s) = .ok b (q.state t) := by
  rw [Parser.acceptKind_eq_ok] at h ⊢
  rw [next_state hs, skip_state hs]
  obtain ⟨hnext, rfl, rfl⟩ | ⟨hnext, rfl, rfl⟩ := h
  · exact Or.inl ⟨hnext, rfl, rfl⟩
  · exact Or.inr ⟨hnext, rfl, rfl⟩

/-- What is accepted only takes tokens, and it takes one if it is there. -/
theorem acceptKind_takes {k : Kind} (hk : k ≠ .eof) (hc : c.finish.kind = .eof) {b : Bool}
    (h : Parser.acceptKind k c s = .ok b t) :
    t.pending <:+ s.pending ∧ (b = true → t.pending.length < s.pending.length) := by
  obtain ⟨hnext, rfl, rfl⟩ | ⟨-, rfl, rfl⟩ := Parser.acceptKind_eq_ok.1 h
  · exact ⟨s.passes_skip.pending, fun _ => (Context.next_mem hc (hnext ▸ hk)).2⟩
  · exact ⟨List.suffix_rfl, by simp⟩

theorem acceptKind {k : Kind} (hk : ¬ k.EndsStatement) :
    q.Runs S (fun _ => 0) (· = true) False (Parser.acceptKind k) (Parser.acceptKind k) := by
  intro c s b t hc _ h
  obtain ⟨hsuffix, htakes⟩ := acceptKind_takes (fun h => hk (Or.inl h)) hc h
  refine ⟨hsuffix, htakes, fun _ => ⟨_, ?_, .same⟩⟩
  by_cases hs : s.pending = []
  · -- neither the end of input nor what stands behind a statement is accepted
    have hnot : (c.next s).kind ≠ k := by
      rw [Context.next, hs, List.headD_nil, hc]
      exact fun h => hk (Or.inl h.symm)
    obtain ⟨hnext, -, -⟩ | ⟨-, rfl, rfl⟩ := Parser.acceptKind_eq_ok.1 h
    · exact absurd hnext hnot
    · refine Parser.acceptKind_eq_ok.2 (Or.inr ⟨?_, rfl, rfl⟩)
      rw [next_nil hs]
      rintro rfl
      exact hk q.head_ends
  · exact acceptKind_state hs h

theorem accept {p : Punct} (hp : p ≠ .semicolon) :
    q.Runs S (fun _ => 0) (· = true) False (Parser.accept p) (Parser.accept p) :=
  acceptKind (by simpa [Kind.EndsStatement] using hp)

theorem accept_steady {p : Punct} (hp : p ≠ .semicolon) :
    q.Steady S (Parser.accept p) (Parser.accept p) :=
  (accept hp).steady

theorem accept_inner (p : Punct) : q.Inner S (· = true) (Parser.accept p) (Parser.accept p) := by
  intro c s b t hc _ h
  obtain ⟨hsuffix, htakes⟩ := acceptKind_takes (k := .punct p) (by simp) hc h
  refine ⟨hsuffix, htakes, fun hleft => ⟨_, acceptKind_state ?_ h, .same⟩⟩
  exact List.length_pos_iff.1 (Nat.lt_of_lt_of_le hleft hsuffix.length_le)

/-- Behind a token that was there, the rest need not take another. -/
theorem acceptKind_ite {k : Kind} (hk : ¬ k.EndsStatement) (hx : q.Runs .anywhere m V e x x')
    (hy : q.Runs .anywhere m T e y y') :
    q.Runs S m T e (Parser.acceptKind k >>= fun b => if b then x else y)
      (Parser.acceptKind k >>= fun b => if b then x' else y') := by
  refine seq (V := fun b r => T r ∧ b = false) (acceptKind hk) (fun b => ?_)
    (fun _ _ => Or.inl ⟨id, Nat.zero_le _⟩) fun b r hr => ?_
  · cases b with
    | true => exact hx.mono fun _ h => absurd h.2 (by simp)
    | false => exact hy.mono fun _ h => h.1
  · cases b with
    | true => exact Or.inl rfl
    | false => exact Or.inr ⟨hr, rfl⟩

theorem accept_ite {k : Punct} (hk : k ≠ .semicolon) (hx : q.Runs .anywhere m V e x x')
    (hy : q.Runs .anywhere m T e y y') :
    q.Runs S m T e (Parser.accept k >>= fun b => if b then x else y)
      (Parser.accept k >>= fun b => if b then x' else y') :=
  acceptKind_ite (by simpa [Kind.EndsStatement] using hk) hx hy

theorem acceptKeyword_ite {k : Keyword} (hx : q.Runs .anywhere m V e x x')
    (hy : q.Runs .anywhere m T e y y') :
    q.Runs S m T e (Parser.acceptKeyword k >>= fun b => if b then x else y)
      (Parser.acceptKeyword k >>= fun b => if b then x' else y') :=
  acceptKind_ite (by simp [Kind.EndsStatement]) hx hy

/-! Ends of statements. -/

/-- A semicolon that may be left out is taken behind the run, if it stands there. -/
theorem accept_semicolon (b : β) :
    q.Runs S (fun _ => 0) (fun _ => False) True (Parser.accept .semicolon >>= fun _ => Pure.pure b)
      (Parser.accept .semicolon >>= fun _ => Pure.pure b) := by
  intro c s r t hc _ h
  obtain ⟨a, u, ha, hb⟩ := Parser.bind_eq_ok.1 h
  obtain ⟨rfl, rfl⟩ := Parser.pure_eq_ok.1 hb
  obtain ⟨hsuffix, -⟩ := acceptKind_takes (k := .punct .semicolon) (by simp) hc ha
  refine ⟨hsuffix, False.elim, fun _ => ?_⟩
  rw [Parser.bind_apply]
  by_cases hs : s.pending = []
  · obtain ⟨hnext, -, -⟩ | ⟨-, rfl, rfl⟩ := Parser.accept_eq_ok.1 ha
    · simp [Context.next, hs, hc] at hnext
    · by_cases hk : q.head.kind = .punct .semicolon
      · have hrun : Parser.accept .semicolon (q.context c) (q.state s) =
            .ok true (q.state s).skip :=
          Parser.accept_eq_ok.2 (Or.inl ⟨by rwa [next_nil hs], rfl, rfl⟩)
        rw [hrun]
        exact ⟨_, rfl, .taken trivial hs hk⟩
      · have hrun : Parser.accept .semicolon (q.context c) (q.state s) = .ok false (q.state s) :=
          Parser.accept_eq_ok.2 (Or.inr ⟨by rwa [next_nil hs], rfl, rfl⟩)
        rw [hrun]
        exact ⟨_, rfl, .same⟩
  · have hrun : Parser.accept .semicolon (q.context c) (q.state s) = .ok a (q.state u) :=
      acceptKind_state hs ha
    rw [hrun]
    exact ⟨_, rfl, .same⟩

/-- Before a semicolon and before the end of input, a statement may end. -/
theorem semicolon_head (hs : s.pending = []) :
    ∃ u, Parser.semicolon (q.context c) (q.state s) = .ok () u ∧ q.Resumes True s u := by
  have hnext : (q.context c).next (q.state s) = q.head := next_nil hs
  rcases q.head_ends with hk | hk
  · refine ⟨_, ?_, .same⟩
    simp [Parser.semicolon, hnext, hk]
  · refine ⟨_, ?_, .taken trivial hs hk⟩
    simp [Parser.semicolon, hnext, hk]

theorem semicolon_eq_ok {u : Unit} : Parser.semicolon c s = .ok u t ↔
    (c.next s).kind = .punct .semicolon ∧ s.skip = t ∨ (c.next s).kind ≠ .punct .semicolon ∧
      ((c.next s).kind == .eof || (c.next s).kind == .punct .rbrace || (c.next s).newlineBefore) =
        true ∧ s = t := by
  by_cases hk : (c.next s).kind = .punct .semicolon <;> simp [Parser.semicolon, hk]

theorem semicolon :
    q.Runs S (fun _ => 0) (fun _ => False) True Parser.semicolon Parser.semicolon := by
  intro c s _ t hc _ h
  by_cases hs : s.pending = []
  · have hend : (c.next s).kind = .eof := by simp [Context.next, hs, hc]
    obtain ⟨hk, -⟩ | ⟨-, -, rfl⟩ := semicolon_eq_ok.1 h
    · simp [hend] at hk
    · exact ⟨List.suffix_rfl, False.elim, fun _ => semicolon_head hs⟩
  · have hrun : Parser.semicolon (q.context c) (q.state s) = .ok () (q.state t) := by
      rw [semicolon_eq_ok] at h ⊢
      rw [next_state hs, skip_state hs]
      obtain ⟨hk, rfl⟩ | ⟨hk, hend, rfl⟩ := h
      · exact Or.inl ⟨hk, rfl⟩
      · exact Or.inr ⟨hk, hend, rfl⟩
    refine ⟨?_, False.elim, fun _ => ⟨_, hrun, .same⟩⟩
    obtain ⟨-, rfl⟩ | ⟨-, -, rfl⟩ := semicolon_eq_ok.1 h
    · exact s.passes_skip.pending
    · exact List.suffix_rfl

/-! Words, contexts and private names. -/

theorem report (cause : Cause) (pos : Position) :
    q.Steady S (Parser.report cause pos) (Parser.report cause pos) := by
  intro c s _ t _ _ h
  obtain rfl := Parser.report_eq_ok.1 h
  refine ⟨List.suffix_rfl, False.elim, fun _ => ⟨_, ?_, .same⟩⟩
  simp [Parser.report, state]

theorem within {change : Context → Context} (hfinish : ∀ c, (change c).finish = c.finish)
    (hchange : ∀ c, change (q.context c) = q.context (change c))
    (hp : q.Runs .anywhere m T e p p') :
    q.Runs S m T e (Parser.within change p) (Parser.within change p') := by
  intro c s b t hc _ h
  rw [Parser.within_apply, hchange]
  exact hp (by rwa [hfinish]) trivial h

theorem onScope (op : Scope → Scope.Attempt) :
    q.Steady S (Parser.onScope op) (Parser.onScope op) := by
  intro c s _ t _ _ h
  obtain ⟨scope, hop, rfl⟩ := Parser.onScope_eq_ok.1 h
  exact ⟨List.suffix_rfl, False.elim, fun _ =>
    ⟨_, Parser.onScope_eq_ok.2 ⟨scope, hop, rfl⟩, .same⟩⟩

theorem inClassBody (hp : q.Takes .anywhere p p') :
    q.Takes S (Parser.inClassBody p) (Parser.inClassBody p') := by
  intro c s b t hc _ h
  obtain ⟨u, hu, scope, hscope, rfl⟩ := Parser.inClassBody_eq_ok.1 h
  have hbody := hp (s := { s with scope := s.scope.enter }) hc trivial hu
  refine ⟨hbody.suffix, hbody.takes, fun _ => ⟨_, ?_, .same⟩⟩
  obtain ⟨v, hv, hresumes⟩ := hbody.resumes (Nat.zero_le _)
  cases hresumes with
  | same => exact Parser.inClassBody_eq_ok.2 ⟨_, hv, scope, hscope, rfl⟩
  | taken he => exact he.elim

theorem checkUnreserved (word : String) (pos : Position) :
    q.Steady S (Parser.checkUnreserved word pos) (Parser.checkUnreserved word pos) :=
  context fun _ => ite (fun _ => reject _ _) fun _ => ite (fun _ => reject _ _) fun _ =>
    ite (fun _ => reject _ _) fun _ => ite (fun _ => report _ _) fun _ => done

theorem anyWord : q.Takes S Parser.anyWord Parser.anyWord := by
  refine peek fun z => ?_
  split
  · exact unexpected _
  · next word hword => exact advance (Kind.ne_eof hword rfl) fun _ => done

theorem ident : q.Takes S Parser.ident Parser.ident :=
  take anyWord fun _ => bind (checkUnreserved _ _) fun _ => context fun _ =>
    ite (fun _ => reject _ _) fun _ => done

theorem checkIfNever (i : Ident) :
    q.Steady S (Parser.checkIfNever i) (Parser.checkIfNever i) :=
  context fun _ => ite (fun _ => checkUnreserved _ _) fun _ => done

theorem propertyWord : q.Takes S Parser.propertyWord Parser.propertyWord :=
  take anyWord fun _ => bind (checkIfNever _) fun _ => done

theorem privateName : q.Takes S Parser.privateName Parser.privateName := by
  refine peek fun z => ?_
  split
  · next word hword =>
    exact advance (by simp [hword]) fun _ => ite (fun _ => reject _ _) fun _ =>
      bind (checkIfNever _) fun _ => done
  · exact unexpected _

end Runs

/-! Repetitions. The longer run has as many turns at least. -/

variable {turns turns' : Nat}

theorem collectFrom {turn turn' : σ → Parser (Parser.Turn σ α)} {U : Parser.Turn σ α → Prop}
    {k : Nat} (hturns : turns ≤ turns')
    (hturn : ∀ x, q.Runs .anywhere (fun _ => k) U False (turn x) (turn' x)) (x : σ) :
    q.Runs .anywhere (fun _ => k) (fun _ => False) False (Parser.collectFrom turn turns x)
      (Parser.collectFrom turn' turns' x) := by
  induction turns generalizing turns' x with
  | zero => exact .fails fun _ _ _ _ h => Parser.fail_eq_ok.1 h
  | succ turns ih =>
    obtain ⟨turns', rfl⟩ := Nat.exists_eq_add_of_lt hturns
    refine .also (hturn x) fun r => ?_
    cases r with
    | stop items => exact .done
    | more items next => exact .map (ih (Nat.le_of_lt_succ hturns) next)

theorem collect {turn turn' : Parser (Parser.Turn Unit α)} {U : Parser.Turn Unit α → Prop}
    {k : Nat} (hturns : turns ≤ turns') (hturn : q.Runs .anywhere (fun _ => k) U False turn turn') :
    q.Runs .anywhere (fun _ => k) (fun _ => False) False (Parser.collect turns turn)
      (Parser.collect turns' turn') :=
  collectFrom hturns (fun _ => hturn) ()

/-- What a turn may look at: nothing if it has taken what ends the repetition. -/
def left : Parser.Turn σ α → Nat
  | .stop _ => 0
  | .more .. => 1

/-- A repetition up to a token that is taken. -/
theorem collectFrom_closed {turn turn' : σ → Parser (Parser.Turn σ α)} (hturns : turns ≤ turns')
    (hturn : ∀ x, q.Runs .anywhere left (fun _ => True) False (turn x) (turn' x)) (x : σ) :
    q.Takes .anywhere (Parser.collectFrom turn turns x) (Parser.collectFrom turn' turns' x) := by
  induction turns generalizing turns' x with
  | zero => exact .fails fun _ _ _ _ h => Parser.fail_eq_ok.1 h
  | succ turns ih =>
    obtain ⟨turns', rfl⟩ := Nat.exists_eq_add_of_lt hturns
    refine .seq (V := fun r _ => r.GoesOn) (hturn x) (fun r => ?_) (fun r _ => ?_)
      fun _ _ _ => Or.inl trivial
    · cases r with
      | stop items => exact .pure id
      | more items next => exact .map (ih (Nat.le_of_lt_succ hturns) next)
    · cases r with
      | stop items => exact Or.inl ⟨id, Nat.le_refl _⟩
      | more items next => exact Or.inr ⟨trivial, Nat.le_refl _⟩

theorem collect_closed {turn turn' : Parser (Parser.Turn Unit α)} (hturns : turns ≤ turns')
    (hturn : q.Runs .anywhere left (fun _ => True) False turn turn') :
    q.Takes .anywhere (Parser.collect turns turn) (Parser.collect turns' turn') :=
  collectFrom_closed hturns (fun _ => hturn) ()

theorem extend {step step' : α → Parser (Option α)} {U : Option α → Prop} (hturns : turns ≤ turns')
    (hstep : ∀ x, q.Runs .anywhere (fun _ => 0) U False (step x) (step' x)) (x : α) :
    q.Steady .anywhere (Parser.extend step turns x) (Parser.extend step' turns' x) := by
  induction turns generalizing turns' x with
  | zero => exact .fails fun _ _ _ _ h => Parser.fail_eq_ok.1 h
  | succ turns ih =>
    obtain ⟨turns', rfl⟩ := Nat.exists_eq_add_of_lt hturns
    refine .bind (hstep x) fun r => ?_
    cases r with
    | none => exact .done
    | some y => exact ih (Nat.le_of_lt_succ hturns) y

/-- Items that look at the token behind them are followed by a comma or the closing punctuator. -/
theorem separated {item item' : Parser α} {close : Punct} {U : α → Prop}
    (hclose : close ≠ .semicolon) (hturns : turns ≤ turns')
    (hitem : q.Inner .anywhere U item item') :
    q.Takes .anywhere (Parser.separated turns close item)
      (Parser.separated turns' close item') := by
  have hrest : q.Runs .anywhere (left (σ := Unit) (α := α)) (fun _ => True) False (do
      if ← Parser.accept close then return .stop []
      else
        let _ ← Parser.expect .comma
        if ← Parser.accept close then return .stop []
        else return .more [← item] ()) (do
      if ← Parser.accept close then return .stop []
      else
        let _ ← Parser.expect .comma
        if ← Parser.accept close then return .stop []
        else return .more [← item'] ()) := by
    refine .accept_ite hclose .done (.take (V := fun _ => False) (.expect _) fun _ =>
      .accept_ite hclose .done ?_)
    refine .left_of (.also hitem fun _ => .done) fun {c s r t} h => ?_
    obtain ⟨a, u, -, hr⟩ := Parser.bind_eq_ok.1 h
    obtain ⟨rfl, -⟩ := Parser.pure_eq_ok.1 hr
    exact Nat.le_refl _
  exact .accept_ite hclose .done (.inner hitem fun _ => .map (collect_closed hturns hrest))

end Sequel

end JsClass
