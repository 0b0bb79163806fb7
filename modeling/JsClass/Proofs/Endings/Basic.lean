import JsClass.Proofs.Safety.Basic

/-!
One run with two endings. A rule that stops before what stands behind its tokens does the same if
something else stands there, as long as neither ending can go on an expression. Rules that tell
such endings apart must leave a token before them.
-/
namespace JsClass

variable {α β σ : Type} {c : Context} {s t u : State}

/-- What may stand behind an expression, commas and colons apart. -/
def Kind.EndsExpression (k : Kind) : Prop :=
  k = .eof ∨ k = .punct .semicolon ∨ k = .punct .rparen ∨ k = .punct .rbracket ∨ k = .punct .rbrace

/-- A kind that means something is no semicolon. -/
theorem Kind.ne_semicolon {f : Kind → Option α} {k : Kind} {a : α} (h : f k = some a)
    (hsemicolon : f (.punct .semicolon) = none) : k ≠ .punct .semicolon := by
  rintro rfl
  rw [hsemicolon] at h
  cases h

instance : DecidablePred Kind.EndsExpression := fun k =>
  inferInstanceAs (Decidable (k = .eof ∨ k = .punct .semicolon ∨ k = .punct .rparen ∨
    k = .punct .rbracket ∨ k = .punct .rbrace))

/-- What stands behind the tokens of a run, and what stands there in another run. -/
structure Endings where
  first : List Token
  second : List Token
  finish : Token
  first_ends : ∀ z ∈ first.head?, z.kind.EndsExpression
  second_ends : (second.headD finish).kind.EndsExpression

namespace Endings

variable {q : Endings} {k : Nat}

/-- The place of the other run. -/
def context (q : Endings) (c : Context) : Context := { c with finish := q.finish }

theorem context_self (h : q.finish = c.finish) : q.context c = c := by
  rw [context, h]

/-- The state of the other run. -/
def state (q : Endings) (s : State) : State :=
  { s with pending := s.pending.take (s.pending.length - q.first.length) ++ q.second }

/-- The ending is still to come, behind `k` tokens at least. -/
def Left (q : Endings) (k : Nat) (s : State) : Prop :=
  q.first <:+ s.pending ∧ q.first.length + k ≤ s.pending.length

theorem state_eq (zs : List Token) (h : s.pending = zs ++ q.first) :
    q.state s = { s with pending := zs ++ q.second } := by
  simp [state, h]

theorem left_iff : q.Left k s ↔ ∃ zs, s.pending = zs ++ q.first ∧ k ≤ zs.length := by
  constructor
  · rintro ⟨⟨zs, hzs⟩, hlength⟩
    refine ⟨zs, hzs.symm, ?_⟩
    rw [← hzs, List.length_append] at hlength
    omega
  · rintro ⟨zs, hzs, hk⟩
    refine ⟨⟨zs, hzs.symm⟩, ?_⟩
    rw [hzs, List.length_append]
    omega

theorem Left.mono {j : Nat} (h : q.Left k s) (hj : j ≤ k) : q.Left j s :=
  ⟨h.1, Nat.le_trans (Nat.add_le_add_left hj _) h.2⟩

theorem Left.since (h : q.Left k t) (ht : t.pending <:+ s.pending) : q.Left k s :=
  ⟨h.1.trans ht, Nat.le_trans h.2 ht.length_le⟩

/-- Before a token that was taken, there was one more. -/
theorem Left.succ (h : q.Left k t) (ht : t.pending <:+ s.pending)
    (hlt : t.pending.length < s.pending.length) : q.Left (k + 1) s :=
  ⟨h.1.trans ht, Nat.lt_of_le_of_lt h.2 hlt⟩

theorem Left.cons (h : q.Left 1 s) : ∃ x zs, s.pending = x :: (zs ++ q.first) := by
  obtain ⟨zs, hzs, hlength⟩ := left_iff.1 h
  cases zs with
  | nil => simp at hlength
  | cons x zs => exact ⟨x, zs, hzs⟩

theorem Left.skip (h : q.Left (k + 1) s) : q.Left k s.skip := by
  obtain ⟨zs, hzs, hlength⟩ := left_iff.1 h
  cases zs with
  | nil => simp at hlength
  | cons x zs =>
    exact left_iff.2 ⟨zs, by simp [State.skip, hzs], Nat.le_of_succ_le_succ hlength⟩

/-- Where no token is left, the ending begins. -/
theorem Left.at_end (h : q.Left 0 s) (hnot : ¬ q.Left 1 s) : s.pending = q.first := by
  obtain ⟨zs, hzs, -⟩ := left_iff.1 h
  cases zs with
  | nil => exact hzs
  | cons x zs => exact absurd (left_iff.2 ⟨x :: zs, hzs, by simp⟩) hnot

theorem next_state (h : q.Left 1 s) : (q.context c).next (q.state s) = c.next s := by
  obtain ⟨x, zs, hzs⟩ := h.cons
  rw [state_eq (x :: zs) hzs]
  simp [Context.next, hzs]

theorem skip_state (h : q.Left 1 s) : (q.state s).skip = q.state s.skip := by
  obtain ⟨x, zs, hzs⟩ := h.cons
  rw [state_eq (x :: zs) hzs, state_eq zs (by simp [State.skip, hzs])]
  simp [State.skip]

/-- A token that is left is seen in both runs. -/
theorem drop_state (h : q.Left (k + 1) s) :
    ((q.state s).pending.drop k).headD (q.context c).finish =
      (s.pending.drop k).headD c.finish := by
  obtain ⟨zs, hzs, hlength⟩ := left_iff.1 h
  rw [state_eq zs hzs, hzs, List.drop_append_of_le_length (by omega),
    List.drop_append_of_le_length (by omega)]
  cases hdrop : zs.drop k with
  | nil =>
    rw [List.drop_eq_nil_iff] at hdrop
    omega
  | cons x rest => rfl

theorem first_headD (hc : c.finish.kind = .eof) :
    (q.first.headD c.finish).kind.EndsExpression := by
  have hends := q.first_ends
  cases hfirst : q.first with
  | nil => exact Or.inl hc
  | cons x rest =>
    rw [hfirst] at hends
    exact hends x rfl

/-- At the ending, both runs see what may stand behind an expression. -/
theorem drop_ends (hc : c.finish.kind = .eof) (h : q.Left k s) (hnot : ¬ q.Left (k + 1) s) :
    ((s.pending.drop k).headD c.finish).kind.EndsExpression ∧
      (((q.state s).pending.drop k).headD (q.context c).finish).kind.EndsExpression := by
  obtain ⟨zs, hzs, hk⟩ := left_iff.1 h
  obtain rfl : k = zs.length :=
    Nat.le_antisymm hk (Nat.not_lt.1 fun hlt => hnot (left_iff.2 ⟨zs, hzs, hlt⟩))
  rw [state_eq zs hzs, hzs, List.drop_left, List.drop_left]
  exact ⟨first_headD hc, q.second_ends⟩

theorem next_ends (hc : c.finish.kind = .eof) (h : q.Left 0 s) (hnot : ¬ q.Left 1 s) :
    (c.next s).kind.EndsExpression ∧
      ((q.context c).next (q.state s)).kind.EndsExpression :=
  drop_ends hc h hnot

/-- A test that takes all that may stand behind an expression for the same. -/
theorem drop_test {P : Token → α} {a : α} (hP : ∀ z, z.kind.EndsExpression → P z = a)
    (hc : c.finish.kind = .eof) (h : q.Left k s) :
    P (((q.state s).pending.drop k).headD (q.context c).finish) =
      P ((s.pending.drop k).headD c.finish) := by
  by_cases hmore : q.Left (k + 1) s
  · rw [drop_state hmore]
  · obtain ⟨hfirst, hsecond⟩ := drop_ends hc h hmore
    rw [hP _ hfirst, hP _ hsecond]

/-- What a run from `s` to `t` with the value `a` has taken, and that the other run has the same
value if enough tokens are left. -/
structure Continues (q : Endings) (l : α → Nat) (T e : α → Prop) (s : State) (a : α) (t : State)
    (r : Reply α) : Prop where
  suffix : t.pending <:+ s.pending
  takes : T a → t.pending.length < s.pending.length
  last : ¬ e a → ∀ z, z :: t.pending <:+ s.pending → z.kind ≠ .punct .semicolon
  resumes : q.Left (l a) t → r = .ok a (q.state t)

/-- Where the rule succeeds, it only takes tokens, one at least if `T` holds of its value; the last
one is a semicolon only if `e` holds. It does the same with the other ending, if `l` tokens are left
before the ending for it to look at. -/
def Runs (q : Endings) (S : Site) (l : α → Nat) (T e : α → Prop) (p : Parser α) : Prop :=
  ∀ ⦃c s a t⦄, c.finish.kind = .eof → S c s → p c s = .ok a t →
    q.Continues l T e s a t (p (q.context c) (q.state s))

/-- Rules that always take a token. -/
abbrev Takes (q : Endings) (S : Site) (p : Parser α) : Prop :=
  q.Runs S (fun _ => 0) (fun _ => True) (fun _ => False) p

/-- Rules that may take nothing. -/
abbrev Steady (q : Endings) (S : Site) (p : Parser α) : Prop :=
  q.Runs S (fun _ => 0) (fun _ => False) (fun _ => False) p

/-- Rules that look at the token behind them. -/
abbrev Inner (q : Endings) (S : Site) (T : α → Prop) (p : Parser α) : Prop :=
  q.Runs S (fun _ => 1) T (fun _ => False) p

/-- Rules that look at the token behind them and may end with a semicolon. -/
abbrev Ends (q : Endings) (S : Site) (T : α → Prop) (p : Parser α) : Prop :=
  q.Runs S (fun _ => 1) T (fun _ => True) p

/-- Looks that see the same in both runs, if `k` tokens are left. -/
def Looks (q : Endings) (k : Nat) (p : Parser α) : Prop :=
  ∀ ⦃c s⦄, c.finish.kind = .eof → ∃ a, p c s = .ok a s ∧
    (q.Left k s → p (q.context c) (q.state s) = .ok a (q.state s))

namespace Runs

variable {S S' : Site} {l : α → Nat} {m : β → Nat} {T e : β → Prop} {U : α → Prop}
  {p x y : Parser β}

theorem fails (hp : ∀ c s b t, p c s ≠ .ok b t) : q.Runs S m T e p :=
  fun _ _ _ _ _ _ h => absurd h (hp _ _ _ _)

theorem reject (cause : Cause) (pos : Position) : q.Runs S m T e (Parser.reject cause pos) :=
  fails fun _ _ _ _ h => Parser.reject_eq_ok.1 h

theorem rejectNext (cause : Cause) : q.Runs S m T e (do Parser.reject cause (← Parser.peek).pos) :=
  fails fun _ _ _ _ h => by simp at h

theorem unexpected (z : Token) : q.Runs S m T e (Parser.unexpected z) :=
  fails fun _ _ _ _ h => Parser.unexpected_eq_ok.1 h

theorem unexpectedNext : q.Runs S m T e Parser.unexpectedNext :=
  fails fun _ _ _ _ h => Parser.unexpectedNext_eq_ok.1 h

/-- Where nothing was taken, there is no last token. -/
theorem not_cons_suffix (z : Token) : ¬ z :: s.pending <:+ s.pending :=
  fun h => Nat.not_succ_le_self _ h.length_le

theorem pure {b : β} (hb : ¬ T b) : q.Runs S m T e (Pure.pure b) := by
  intro c s _ t _ _ h
  obtain ⟨rfl, rfl⟩ := Parser.pure_eq_ok.1 h
  exact ⟨List.suffix_rfl, fun hT => absurd hT hb, fun _ z hz => absurd hz (not_cons_suffix z),
    fun _ => rfl⟩

theorem done {b : β} : q.Runs S m (fun _ => False) e (Pure.pure b) := pure id

theorem site (hp : q.Runs S' m T e p) (hS : ∀ c s, S c s → S' c s) : q.Runs S m T e p :=
  fun _ _ _ _ hc h hrun => hp hc (hS _ _ h) hrun

theorem anyplace (hp : q.Runs .anywhere m T e p) : q.Runs S m T e p :=
  hp.site fun _ _ _ => trivial

/-- What a rule takes may be read off its successful runs. -/
theorem takes_of {T' : β → Prop} (hp : q.Runs S m T' e p)
    (hT : ∀ {c s b t}, c.finish.kind = .eof → p c s = .ok b t → T b →
      t.pending.length < s.pending.length) : q.Runs S m T e p := by
  intro c s b t hc hS h
  have hrun := hp hc hS h
  exact ⟨hrun.suffix, hT hc h, hrun.last, hrun.resumes⟩

/-- How much a rule looks at, and how it may end, may be read off its successful runs. -/
theorem left_of {l : β → Nat} {e' : β → Prop} (hp : q.Runs S l T e' p)
    (hm : ∀ {c s b t}, p c s = .ok b t → l b ≤ m b ∧ (e' b → e b)) : q.Runs S m T e p := by
  intro c s b t hc hS h
  have hrun := hp hc hS h
  exact ⟨hrun.suffix, hrun.takes, fun he => hrun.last fun he' => he ((hm h).2 he'),
    fun hleft => hrun.resumes (hleft.mono (hm h).1)⟩

theorem mono {T' : β → Prop} (hp : q.Runs S m T e p) (hT : ∀ b, T' b → T b) :
    q.Runs S m T' e p := by
  intro c s b t hc hS h
  have hrun := hp hc hS h
  exact ⟨hrun.suffix, fun hb => hrun.takes (hT b hb), hrun.last, hrun.resumes⟩

theorem steady (hp : q.Runs S m T e p) : q.Runs S m (fun _ => False) e p :=
  hp.mono fun _ => False.elim

/-- A rule that looks at nothing is one that may look. -/
theorem inside (hp : q.Runs S (fun _ => 0) T e p) : q.Runs S m T e p :=
  hp.left_of fun _ => ⟨Nat.zero_le _, id⟩

/-- A rule that does not end with a semicolon is one that may. -/
theorem ends (hp : q.Runs S m T (fun _ => False) p) : q.Runs S m T e p :=
  hp.left_of fun _ => ⟨Nat.le_refl _, False.elim⟩

end Runs

/-! Runs that began before the place they are looked at. -/

namespace Continues

variable {S : Site} {l : α → Nat} {m : β → Nat} {T T' e : β → Prop} {U : α → Prop}
  {f f' : α → Parser β} {r : Parser α} {x x' y y' : Parser β} {b : β}

/-- What is so from a later state on, behind which a token is taken, is so from an earlier one
on. -/
theorem behind {w : Reply β} (h : q.Continues m T e u b t w) (hu : u.pending <:+ s.pending)
    (hlt : t.pending.length < u.pending.length) : q.Continues m T' e s b t w :=
  ⟨h.suffix.trans hu, fun _ => Nat.lt_of_lt_of_le hlt hu.length_le,
    fun he z hz => h.last he z (List.suffix_of_suffix_length_le hz hu hlt), h.resumes⟩

/-- The rest may depend on what the other run has kept, so it need not be the same there. -/
theorem bind (hr : q.Runs S l U (fun _ => False) r) (hc : c.finish.kind = .eof) (hS : S c u)
    (h : (r >>= f) c u = .ok b t)
    (hf : ∀ a v, r c u = .ok a v → v.pending <:+ u.pending →
      (U a → v.pending.length < u.pending.length) → f a c v = .ok b t →
      (q.Left (m b) t → q.Left (l a) v) ∧
        q.Continues m T e s b t (f' a (q.context c) (q.state v))) :
    q.Continues m T e s b t ((r >>= f') (q.context c) (q.state u)) := by
  obtain ⟨a, v, ha, hb⟩ := Parser.bind_eq_ok.1 h
  have hfirst := hr hc hS ha
  obtain ⟨hleft, hrest⟩ := hf a v ha hfirst.suffix hfirst.takes hb
  refine ⟨hrest.suffix, hrest.takes, hrest.last, fun hm => ?_⟩
  rw [Parser.bind_apply, hfirst.resumes (hleft hm)]
  exact hrest.resumes hm

/-- All tokens to come, which rules keep to go back to them. -/
theorem pending {f f' : List Token → Parser β} (h : (Parser.pending >>= f) c u = .ok b t)
    (hf : f u.pending c u = .ok b t →
      q.Continues m T e s b t (f' (q.state u).pending (q.context c) (q.state u))) :
    q.Continues m T e s b t ((Parser.pending >>= f') (q.context c) (q.state u)) :=
  hf h

theorem ite {P : Prop} [Decidable P] (h : (if P then x else y) c u = .ok b t)
    (hx : P → x c u = .ok b t → q.Continues m T e s b t (x' (q.context c) (q.state u)))
    (hy : ¬ P → y c u = .ok b t → q.Continues m T e s b t (y' (q.context c) (q.state u))) :
    q.Continues m T e s b t ((if P then x' else y') (q.context c) (q.state u)) := by
  split
  · next hP =>
    rw [if_pos hP] at h
    exact hx hP h
  · next hP =>
    rw [if_neg hP] at h
    exact hy hP h

end Continues

/-! One rule behind another. -/

namespace Runs

variable {S S' : Site} {l : α → Nat} {m : β → Nat} {T e : β → Prop} {U : α → Prop}
  {p x y : Parser β} {k : Nat}

/-- The first rule must leave what the second one asks for, or the token that this one takes. -/
theorem seq {f : α → Parser β} {r : Parser α} {V : α → β → Prop} {e' : α → Prop}
    (hr : q.Runs S l U e' r) (hf : ∀ a, q.Runs .anywhere m (V a) e (f a))
    (hl : ∀ a b, (e' a → e b) ∧ l a ≤ m b ∨ V a b ∧ l a ≤ m b + 1)
    (hT : ∀ a b, T b → U a ∨ V a b) : q.Runs S m T e (r >>= f) := by
  intro c s b t hc hS h
  obtain ⟨a, u, ha, hb⟩ := Parser.bind_eq_ok.1 h
  have hfirst := hr hc hS ha
  have hrest := hf a hc trivial hb
  have hle : t.pending.length ≤ u.pending.length := hrest.suffix.length_le
  refine ⟨hrest.suffix.trans hfirst.suffix, fun hb => ?_, fun hnot z hz => ?_, fun hleft => ?_⟩
  · rcases hT a b hb with ha | hb
    · exact Nat.lt_of_le_of_lt hle (hfirst.takes ha)
    · exact Nat.lt_of_lt_of_le (hrest.takes hb) hfirst.suffix.length_le
  · by_cases hlt : t.pending.length < u.pending.length
    · exact hrest.last hnot z (List.suffix_of_suffix_length_le hz hfirst.suffix hlt)
    · rcases hl a b with ⟨he, -⟩ | ⟨hV, -⟩
      · have hsame : t.pending = u.pending :=
          hrest.suffix.eq_of_length (Nat.le_antisymm hle (Nat.not_lt.1 hlt))
        rw [hsame] at hz
        exact hfirst.last (fun ha => hnot (he ha)) z hz
      · exact absurd (hrest.takes hV) hlt
  · have hleft' : q.Left (l a) u := by
      rcases hl a b with ⟨-, hl⟩ | ⟨hV, hl⟩
      · exact (hleft.mono hl).since hrest.suffix
      · exact (hleft.succ hrest.suffix (hrest.takes hV)).mono hl
    rw [Parser.bind_apply, hfirst.resumes hleft']
    exact hrest.resumes hleft

section

variable {f : α → Parser β} {r : Parser α}

theorem bind (hr : q.Runs S (fun _ => 0) U (fun _ => False) r)
    (hf : ∀ a, q.Runs .anywhere m T e (f a)) : q.Runs S m T e (r >>= f) :=
  seq hr hf (fun _ _ => Or.inl ⟨False.elim, Nat.zero_le _⟩) fun _ _ => Or.inr

/-- Behind a rule that takes a token, the rest need not take another. -/
theorem take {V : β → Prop} (hr : q.Takes S r) (hf : ∀ a, q.Runs .anywhere m V e (f a)) :
    q.Runs S m T e (r >>= f) :=
  seq hr hf (fun _ _ => Or.inl ⟨False.elim, Nat.zero_le _⟩) fun _ _ _ => Or.inl trivial

/-- Both rules look at the same number of tokens behind them. Whether the first one takes a token
may depend on its value. -/
theorem also_of {P : Prop} (hr : q.Runs S (fun _ => k) U (fun _ => P) r)
    (hf : ∀ a, q.Runs .anywhere (fun _ => k) (fun b => T b ∧ ¬ U a) (fun _ => P) (f a)) :
    q.Runs S (fun _ => k) T (fun _ => P) (r >>= f) := by
  refine seq hr hf (fun _ _ => Or.inl ⟨id, Nat.le_refl _⟩) fun a b hb => ?_
  by_cases ha : U a
  · exact Or.inl ha
  · exact Or.inr ⟨hb, ha⟩

theorem also {P : Prop} (hr : q.Runs S (fun _ => k) U (fun _ => P) r)
    (hf : ∀ a, q.Runs .anywhere (fun _ => k) T (fun _ => P) (f a)) :
    q.Runs S (fun _ => k) T (fun _ => P) (r >>= f) :=
  also_of hr fun a => (hf a).mono fun _ h => h.1

/-- The token that the first rule looks at is taken by the rest. -/
theorem inner {e' : α → Prop} (hr : q.Runs S (fun _ => k + 1) U e' r)
    (hf : ∀ a, q.Runs .anywhere (fun _ => k) (fun _ => True) e (f a)) :
    q.Runs S (fun _ => k) (fun _ => True) e (r >>= f) :=
  seq hr hf (fun _ _ => Or.inr ⟨trivial, Nat.le_refl _⟩) fun _ _ _ => Or.inr trivial

/-- The value that a rule gives does not matter. -/
theorem map {P Q : Prop} {h : α → β} (hr : q.Runs S (fun _ => k) (fun _ => P) (fun _ => Q) r) :
    q.Runs S (fun _ => k) (fun _ => P) (fun _ => Q) (r >>= fun a => Pure.pure (h a)) :=
  seq (V := fun _ _ => False) hr (fun _ => .done) (fun _ _ => Or.inl ⟨id, Nat.le_refl _⟩)
    fun _ _ => Or.inl

end

theorem ite {P : Prop} [Decidable P] (hx : P → q.Runs S m T e x) (hy : ¬ P → q.Runs S m T e y) :
    q.Runs S m T e (if P then x else y) := by
  split
  · exact hx ‹_›
  · exact hy ‹_›

/-! Looks at what comes next. -/

/-- A look that the rest of the rule, with what it takes and leaves, has enough tokens for. -/
theorem look_at {f : α → Parser β} {r : Parser α} (hr : q.Looks k r)
    (hk : ∀ b, k ≤ m b ∨ T b ∧ k ≤ m b + 1) (hf : ∀ a, q.Runs S m T e (f a)) :
    q.Runs S m T e (r >>= f) := by
  intro c s b t hc hS h
  obtain ⟨a, ha, hsame⟩ := hr (s := s) hc
  rw [Parser.bind_apply, ha] at h
  have hrest := hf a hc hS h
  refine ⟨hrest.suffix, hrest.takes, hrest.last, fun hleft => ?_⟩
  have hthere : q.Left k s := by
    rcases hk b with hk | ⟨hT, hk⟩
    · exact (hleft.mono hk).since hrest.suffix
    · exact (hleft.succ hrest.suffix (hrest.takes hT)).mono hk
  rw [Parser.bind_apply, hsame hthere]
  exact hrest.resumes hleft

/-- A look that sees the same whatever is to come. -/
theorem look {f : α → Parser β} {r : Parser α} (hr : q.Looks 0 r)
    (hf : ∀ a, q.Runs S m T e (f a)) : q.Runs S m T e (r >>= f) :=
  look_at hr (fun _ => Or.inl (Nat.zero_le _)) hf

/-- A rule may ask for all of its place but the end of input. -/
theorem context {f : Context → Parser β} (hsame : ∀ d, f (q.context d) = f d)
    (hf : ∀ d, q.Runs S m T e (f d)) : q.Runs S m T e (Parser.context >>= f) := by
  intro c s b t hc hS h
  show q.Continues m T e s b t (f (q.context c) (q.context c) (q.state s))
  rw [hsame]
  exact hf _ hc hS h

/-- Both runs see a token that is there. -/
theorem peek_at {f : Token → Parser β} (hm : ∀ b, 0 < m b ∨ T b)
    (hf : ∀ z, q.Runs (.before z) m T e (f z)) : q.Runs S m T e (Parser.peek >>= f) := by
  intro c s b t hc _ h
  have hrest := hf (c.next s) hc rfl h
  refine ⟨hrest.suffix, hrest.takes, hrest.last, fun hleft => ?_⟩
  have hthere : q.Left 1 s := by
    rcases hm b with hm | hT
    · exact (hleft.mono hm).since hrest.suffix
    · exact (hleft.succ hrest.suffix (hrest.takes hT)).mono (Nat.le_add_left 1 _)
  show f ((q.context c).next (q.state s)) _ _ = _
  rw [next_state hthere]
  exact hrest.resumes hleft

/-- A look before a token is taken. -/
theorem peek {f : Token → Parser β} (hf : ∀ z, q.Runs (.before z) m (fun _ => True) e (f z)) :
    q.Runs S m (fun _ => True) e (Parser.peek >>= f) :=
  peek_at (fun _ => Or.inr trivial) hf

/-- A look where a token is left. -/
theorem peek_inner {f : Token → Parser β}
    (hf : ∀ z, q.Runs (.before z) (fun _ => k + 1) T e (f z)) :
    q.Runs S (fun _ => k + 1) T e (Parser.peek >>= f) :=
  peek_at (fun _ => Or.inl (Nat.succ_pos k)) hf

/-- A look at what may be the ending, if a rule that succeeds there takes all endings for the
same. -/
theorem glance_of {f : Token → Parser β} (hf : ∀ z, q.Runs (.before z) m T e (f z))
    (hend : ∀ w z, w.kind.EndsExpression → z.kind.EndsExpression →
      ∀ {c s b t}, f z c s = .ok b t → f w = f z) :
    q.Runs S m T e (Parser.peek >>= f) := by
  intro c s b t hc _ h
  have hrest := hf (c.next s) hc rfl h
  refine ⟨hrest.suffix, hrest.takes, hrest.last, fun hleft => ?_⟩
  have hthere : q.Left 0 s := (hleft.mono (Nat.zero_le _)).since hrest.suffix
  have hsame : f ((q.context c).next (q.state s)) = f (c.next s) := by
    by_cases hmore : q.Left 1 s
    · rw [next_state hmore]
    · obtain ⟨hfirst, hsecond⟩ := next_ends hc hthere hmore
      exact hend _ _ hsecond hfirst h
  show f ((q.context c).next (q.state s)) _ _ = _
  rw [hsame]
  exact hrest.resumes hleft

/-- A look at what may be the ending, which is all the same to the rule. -/
theorem glance {f : Token → Parser β} (hf : ∀ z, q.Runs (.before z) m T e (f z))
    (hend : ∀ w z, w.kind.EndsExpression → z.kind.EndsExpression → f w = f z) :
    q.Runs S m T e (Parser.peek >>= f) :=
  glance_of hf fun w z hw hz _ _ _ _ _ => hend w z hw hz

/-- A look at a token without which the rule fails. -/
theorem demand {f : Token → Parser β} (hf : ∀ z, q.Runs (.before z) m T e (f z))
    (hend : ∀ z, z.kind.EndsExpression → ∀ c s b t, f z c s ≠ .ok b t) :
    q.Runs S m T e (Parser.peek >>= f) :=
  glance_of hf fun _ z _ hz _ _ _ _ h => absurd h (hend z hz _ _ _ _)

end Runs

/-! Looks. -/

namespace Looks

variable {k : Nat} {r : Parser α} {f : α → Parser β}

theorem pure (b : β) : q.Looks k (Pure.pure b) := fun _ _ _ => ⟨b, rfl, fun _ => rfl⟩

theorem bind (hr : q.Looks k r) (hf : ∀ a, q.Looks k (f a)) : q.Looks k (r >>= f) := by
  intro c s hc
  obtain ⟨a, ha, ha'⟩ := hr (s := s) hc
  obtain ⟨b, hb, hb'⟩ := hf a (s := s) hc
  refine ⟨b, ?_, fun hk => ?_⟩
  · rw [Parser.bind_apply, ha]
    exact hb
  · rw [Parser.bind_apply, ha' hk]
    exact hb' hk

theorem mono {j : Nat} (hr : q.Looks k r) (hk : k ≤ j) : q.Looks j r := by
  intro c s hc
  obtain ⟨a, ha, hsame⟩ := hr (s := s) hc
  exact ⟨a, ha, fun hj => hsame (hj.mono hk)⟩

theorem context {f : Context → Parser β} (hsame : ∀ d, f (q.context d) = f d)
    (hf : ∀ d, q.Looks k (f d)) : q.Looks k (Parser.context >>= f) := by
  intro c s hc
  obtain ⟨b, hb, hk⟩ := hf c (s := s) hc
  refine ⟨b, hb, fun hleft => ?_⟩
  show f (q.context c) (q.context c) (q.state s) = _
  rw [hsame]
  exact hk hleft

theorem peekAt (n : Nat) : q.Looks (n + 1) (Parser.peekAt n) := by
  refine fun c s _ => ⟨_, rfl, fun hn => ?_⟩
  show Reply.ok _ _ = _
  rw [drop_state hn]

theorem peek : q.Looks 1 Parser.peek := peekAt 0

/-- A test that takes all that may stand behind an expression for the same may also see the first
token of the ending. -/
theorem test {f : Token → Parser β} {p : Parser β} (hp : ∀ z, z.kind.EndsExpression → f z = p)
    (hf : ∀ z, q.Looks 0 (f z)) (n : Nat) : q.Looks n (Parser.peekAt n >>= f) := by
  intro c s hc
  obtain ⟨b, hb, hsame⟩ := hf ((s.pending.drop n).headD c.finish) (s := s) hc
  refine ⟨b, hb, fun hn => ?_⟩
  rw [← hsame (hn.mono (Nat.zero_le _)), ← drop_test hp hc hn]
  rfl

/-- A look at what may be the ending. -/
theorem glance {f : Token → Parser β} (hf : ∀ z, q.Looks 1 (f z)) {b : β}
    (hend : ∀ z, z.kind.EndsExpression → ∀ c s, f z c s = .ok b s) :
    q.Looks 0 (Parser.peek >>= f) := by
  intro c s hc
  obtain ⟨a, ha, hsame⟩ := hf (c.next s) (s := s) hc
  refine ⟨a, ha, fun hleft => ?_⟩
  show f ((q.context c).next (q.state s)) _ _ = _
  by_cases hmore : q.Left 1 s
  · rw [next_state hmore]
    exact hsame hmore
  · obtain ⟨hfirst, hsecond⟩ := next_ends hc hleft hmore
    have hab : Reply.ok b s = .ok a s := (hend _ hfirst c s).symm.trans ha
    cases hab
    exact hend _ hsecond _ _

/-- A look at a kind that does not end expressions. -/
theorem checkKind {k : Kind} (hk : ¬ k.EndsExpression) : q.Looks 0 (Parser.checkKind k) := by
  refine test (f := fun z => Pure.pure (z.kind == k)) (p := Pure.pure false) (fun z hz => ?_)
    (fun _ => pure _) 0
  have hne : (z.kind == k) = false := by
    rw [beq_eq_false_iff_ne]
    rintro rfl
    exact hk hz
  rw [hne]

theorem check {p : Punct} (hp : ¬ (Kind.punct p).EndsExpression) : q.Looks 0 (Parser.check p) :=
  checkKind hp

theorem check_inner (p : Punct) : q.Looks 1 (Parser.check p) := bind peek fun _ => pure _

theorem atEnd : q.Looks 1 Parser.atEnd := bind peek fun _ => pure _

theorem canInsertSemicolon : q.Looks 1 Parser.canInsertSemicolon := bind peek fun _ => pure _

end Looks

namespace Runs

variable {S S' : Site} {l : α → Nat} {m : β → Nat} {T V e : β → Prop} {p x y : Parser β}

/-- A look that shows whether the token comes next. -/
theorem checkKind {k : Kind} {f : Bool → Parser β} (hk : ¬ k.EndsExpression)
    (hf : ∀ b, q.Runs (fun c s => b = true → (c.next s).kind = k) m T e (f b)) :
    q.Runs S m T e (Parser.checkKind k >>= f) := by
  intro c s b t hc _ h
  obtain ⟨a, ha, hsame⟩ := Looks.checkKind (q := q) hk (s := s) hc
  obtain ⟨rfl, -⟩ := Parser.checkKind_eq_ok.1 ha
  rw [Parser.bind_apply, ha] at h
  have hrest := hf _ hc beq_iff_eq.1 h
  refine ⟨hrest.suffix, hrest.takes, hrest.last, fun hleft => ?_⟩
  rw [Parser.bind_apply, hsame ((hleft.mono (Nat.zero_le _)).since hrest.suffix)]
  exact hrest.resumes hleft

/-! Steps that take a token. -/

/-- Where the token that comes next is taken, it is the last one. -/
theorem skip_last (hc : c.finish.kind = .eof) (hne : (c.next s).kind ≠ .eof) (z : Token)
    (hz : z :: s.skip.pending <:+ s.pending) : z = c.next s := by
  cases hs : s.pending with
  | nil => simp [Context.next, hs, hc] at hne
  | cons x rest =>
    rw [State.skip, hs, List.tail_cons] at hz
    obtain ⟨rfl, -⟩ := List.cons.inj (hz.eq_of_length rfl)
    simp [Context.next, hs]

theorem advance_filled : q.Runs .filled (fun _ => 0) (fun _ => True)
    (fun z => z.kind = .punct .semicolon) Parser.advance := by
  intro c s z t hc hS h
  obtain ⟨rfl, rfl⟩ := Parser.advance_eq_ok.1 h
  have hlt := (Context.next_mem hc hS).2
  refine ⟨s.passes_skip.pending, fun _ => hlt, fun hnot z hz => ?_, fun hleft => ?_⟩
  · rwa [skip_last hc hS z hz]
  · have hmore := hleft.succ s.passes_skip.pending hlt
    rw [Parser.advance_apply, next_state hmore, skip_state hmore]

/-- A token that was seen is taken. -/
theorem advance {f : Token → Parser β} {z : Token} (hz : z.kind ≠ .eof)
    (hsemicolon : z.kind ≠ .punct .semicolon) (hf : ∀ w, q.Runs .anywhere m V e (f w)) :
    q.Runs (.before z) m T e (Parser.advance >>= f) := by
  refine take ?_ hf
  intro c s w t hc hS h
  have hrun := advance_filled (q := q) hc (Site.filled_of_before hz hS) h
  obtain ⟨rfl, -⟩ := Parser.advance_eq_ok.1 h
  have hnext : c.next s = z := hS
  exact ⟨hrun.suffix, hrun.takes, fun _ => hrun.last (by rwa [hnext]), hrun.resumes⟩

theorem advance_ends {f : Token → Parser β} {z : Token} (hz : z.kind ≠ .eof)
    (hf : ∀ w, q.Runs .anywhere m V (fun _ => True) (f w)) :
    q.Runs (.before z) m T (fun _ => True) (Parser.advance >>= f) :=
  seq (advance_filled.site fun _ _ => Site.filled_of_before hz) hf
    (fun _ _ => Or.inl ⟨fun _ => trivial, Nat.zero_le _⟩) fun _ _ _ => Or.inl trivial

theorem advance_inner :
    q.Runs S (fun _ => 1) (fun _ => False) (fun _ => True) Parser.advance := by
  intro c s z t hc hS h
  obtain ⟨rfl, rfl⟩ := Parser.advance_eq_ok.1 h
  refine ⟨s.passes_skip.pending, False.elim, fun hnot => absurd trivial hnot, fun hleft => ?_⟩
  have hmore := hleft.since s.passes_skip.pending
  rw [Parser.advance_apply, next_state hmore, skip_state hmore]

theorem expectKind {k : Kind} (hk : k ≠ .eof) : q.Runs S (fun _ => 0) (fun _ => True)
    (fun _ => k = .punct .semicolon) (Parser.expectKind k) := by
  intro c s z t hc hS h
  obtain ⟨hnext, rfl, rfl⟩ := Parser.expectKind_eq_ok.1 h
  have hne : (c.next s).kind ≠ .eof := hnext ▸ hk
  have hlt := (Context.next_mem hc hne).2
  refine ⟨s.passes_skip.pending, fun _ => hlt, fun hnot z hz => ?_, fun hleft => ?_⟩
  · rwa [skip_last hc hne z hz, hnext]
  · have hmore := hleft.succ s.passes_skip.pending hlt
    refine Parser.expectKind_eq_ok.2 ?_
    rw [next_state hmore, skip_state hmore]
    exact ⟨hnext, rfl, rfl⟩

theorem expect {k : Punct} (hk : k ≠ .semicolon) : q.Takes S (Parser.expect k) :=
  (expectKind (by simp)).left_of fun _ => ⟨Nat.le_refl _, fun h => hk (Kind.punct.inj h)⟩

theorem expect_semicolon : q.Ends S (fun _ => True) (Parser.expect .semicolon) :=
  (expectKind (by simp)).left_of fun _ => ⟨Nat.zero_le _, fun _ => trivial⟩

theorem expectKeyword (k : Keyword) : q.Takes S (Parser.expectKeyword k) :=
  (expectKind (by simp)).left_of fun _ => ⟨Nat.le_refl _, by simp⟩

/-- Where a token is left, it is taken in both runs or in none. -/
theorem acceptKind_state {k : Kind} (hs : q.Left 1 s) {b : Bool}
    (h : Parser.acceptKind k c s = .ok b t) :
    Parser.acceptKind k (q.context c) (q.state s) = .ok b (q.state t) := by
  rw [Parser.acceptKind_eq_ok] at h ⊢
  rw [next_state hs, skip_state hs]
  obtain ⟨hnext, rfl, rfl⟩ | ⟨hnext, rfl, rfl⟩ := h
  · exact Or.inl ⟨hnext, rfl, rfl⟩
  · exact Or.inr ⟨hnext, rfl, rfl⟩

/-- What a token is accepted before, if it is not there. -/
def leftBehind (accepted : Bool) : Nat := if accepted then 0 else 1

/-- A token that may also stand in the ending. -/
theorem acceptKind_any {k : Kind} (hk : k ≠ .eof) : q.Runs S leftBehind (· = true)
    (fun b => b = true ∧ k = .punct .semicolon) (Parser.acceptKind k) := by
  intro c s b t hc _ h
  obtain ⟨hnext, rfl, rfl⟩ | ⟨-, rfl, rfl⟩ := Parser.acceptKind_eq_ok.1 h
  · have hne : (c.next s).kind ≠ .eof := hnext ▸ hk
    have hlt := (Context.next_mem hc hne).2
    refine ⟨s.passes_skip.pending, fun _ => hlt, fun hnot z hz => ?_, fun hleft => ?_⟩
    · rw [skip_last hc hne z hz, hnext]
      exact fun hk => hnot ⟨rfl, hk⟩
    · exact acceptKind_state (hleft.succ s.passes_skip.pending hlt) h
  · exact ⟨List.suffix_rfl, nofun, fun _ z hz => absurd hz (not_cons_suffix z), fun hleft =>
      acceptKind_state hleft h⟩

theorem acceptKind {k : Kind} (hk : ¬ k.EndsExpression) :
    q.Runs S (fun _ => 0) (· = true) (fun _ => False) (Parser.acceptKind k) := by
  intro c s b t hc hS h
  have hrun := acceptKind_any (q := q) (fun h => hk (Or.inl h)) hc hS h
  refine ⟨hrun.suffix, hrun.takes, fun _ => hrun.last fun h => hk (Or.inr (Or.inl h.2)),
    fun hleft => ?_⟩
  by_cases hmore : q.Left 1 s
  · exact acceptKind_state hmore h
  · -- neither ending begins with a token of this kind
    obtain ⟨hfirst, hsecond⟩ := next_ends hc (hleft.since hrun.suffix) hmore
    obtain ⟨hnext, -⟩ | ⟨-, rfl, rfl⟩ := Parser.acceptKind_eq_ok.1 h
    · exact absurd (hnext ▸ hfirst) hk
    · exact Parser.acceptKind_eq_ok.2 (Or.inr ⟨fun hnext => hk (hnext ▸ hsecond), rfl, rfl⟩)

theorem accept {k : Punct} (hk : ¬ (Kind.punct k).EndsExpression) :
    q.Runs S (fun _ => 0) (· = true) (fun _ => False) (Parser.accept k) :=
  acceptKind hk

theorem accept_steady {k : Punct} (hk : ¬ (Kind.punct k).EndsExpression) :
    q.Steady S (Parser.accept k) :=
  (accept hk).steady

/-- Behind a token that was there, the rest need not take another. -/
theorem acceptKind_ite {k : Kind} (hk : ¬ k.EndsExpression) (hx : q.Runs .anywhere m V e x)
    (hy : q.Runs .anywhere m T e y) :
    q.Runs S m T e (Parser.acceptKind k >>= fun b => if b then x else y) := by
  refine seq (V := fun b r => T r ∧ b = false) (acceptKind hk) (fun b => ?_)
    (fun _ _ => Or.inl ⟨False.elim, Nat.zero_le _⟩) fun b r hr => ?_
  · cases b with
    | true => exact hx.mono fun _ h => absurd h.2 (by simp)
    | false => exact hy.mono fun _ h => h.1
  · cases b with
    | true => exact Or.inl rfl
    | false => exact Or.inr ⟨hr, rfl⟩

theorem accept_ite {k : Punct} (hk : ¬ (Kind.punct k).EndsExpression)
    (hx : q.Runs .anywhere m V e x) (hy : q.Runs .anywhere m T e y) :
    q.Runs S m T e (Parser.accept k >>= fun b => if b then x else y) :=
  acceptKind_ite hk hx hy

theorem acceptKeyword_ite {k : Keyword} (hx : q.Runs .anywhere m V e x)
    (hy : q.Runs .anywhere m T e y) :
    q.Runs S m T e (Parser.acceptKeyword k >>= fun b => if b then x else y) :=
  acceptKind_ite (by simp [Kind.EndsExpression]) hx hy

/-- A closing punctuator is told from other endings where the rest takes or leaves a token. -/
theorem accept_closer {k : Punct} (hk : k ≠ .semicolon) (hm : ∀ b, T b ∨ 0 < m b)
    (hx : q.Runs .anywhere m V e x) (hy : q.Runs .anywhere m T e y) :
    q.Runs S m T e (Parser.accept k >>= fun b => if b then x else y) := by
  refine seq (V := fun b r => T r ∧ b = false) (acceptKind_any (by simp)) (fun b => ?_)
    (fun b r => ?_) fun b r hr => ?_
  · cases b with
    | true => exact hx.mono fun _ h => absurd h.2 (by simp)
    | false => exact hy.mono fun _ h => h.1
  · cases b with
    | true => exact Or.inl ⟨fun h => absurd (Kind.punct.inj h.2) hk, Nat.zero_le _⟩
    | false =>
      rcases hm r with hr | hr
      · exact Or.inr ⟨⟨hr, rfl⟩, Nat.le_add_left 1 _⟩
      · exact Or.inl ⟨fun h => absurd h.1 (by simp), hr⟩
  · cases b with
    | true => exact Or.inl rfl
    | false => exact Or.inr ⟨hr, rfl⟩

/-! Ends of statements. -/

theorem leftBehind_le (b : Bool) : leftBehind b ≤ 1 := by
  cases b <;> simp [leftBehind]

theorem accept_semicolon : q.Ends S (· = true) (Parser.accept .semicolon) :=
  (acceptKind_any (by simp)).left_of fun _ => ⟨leftBehind_le _, fun _ => trivial⟩

theorem semicolon : q.Ends S (fun _ => False) Parser.semicolon :=
  seq accept_semicolon
    (fun _ => ite (fun _ => done) fun _ => look_at .canInsertSemicolon
      (fun _ => Or.inl (Nat.le_refl _)) fun _ => ite (fun _ => done) fun _ => unexpectedNext)
    (fun _ _ => Or.inl ⟨id, Nat.le_refl _⟩) fun _ _ => False.elim

/-! Words, contexts and private names. -/

theorem report (cause : Cause) (pos : Position) : q.Steady S (Parser.report cause pos) := by
  intro c s _ t _ _ h
  obtain rfl := Parser.report_eq_ok.1 h
  exact ⟨List.suffix_rfl, False.elim, fun _ z hz => absurd hz (not_cons_suffix z), fun _ => rfl⟩

theorem within {change : Context → Context} (hfinish : ∀ c, (change c).finish = c.finish)
    (hchange : ∀ c, change (q.context c) = q.context (change c)) (hp : q.Runs .anywhere m T e p) :
    q.Runs S m T e (Parser.within change p) := by
  intro c s b t hc _ h
  rw [Parser.within_apply, hchange]
  exact hp (by rwa [hfinish]) trivial h

theorem onScope (op : Scope → Scope.Attempt) : q.Steady S (Parser.onScope op) := by
  intro c s _ t _ _ h
  obtain ⟨scope, hop, rfl⟩ := Parser.onScope_eq_ok.1 h
  exact ⟨List.suffix_rfl, False.elim, fun _ z hz => absurd hz (not_cons_suffix z), fun _ =>
    Parser.onScope_eq_ok.2 ⟨scope, hop, rfl⟩⟩

theorem inClassBody (hp : q.Takes .anywhere p) : q.Takes S (Parser.inClassBody p) := by
  intro c s b t hc _ h
  obtain ⟨u, hu, scope, hscope, rfl⟩ := Parser.inClassBody_eq_ok.1 h
  have hbody := hp (s := { s with scope := s.scope.enter }) hc trivial hu
  exact ⟨hbody.suffix, hbody.takes, hbody.last, fun hleft =>
    Parser.inClassBody_eq_ok.2 ⟨_, hbody.resumes hleft, scope, hscope, rfl⟩⟩

theorem checkUnreserved (word : String) (pos : Position) :
    q.Steady S (Parser.checkUnreserved word pos) :=
  context (fun _ => rfl) fun _ => ite (fun _ => reject _ _) fun _ => ite (fun _ => reject _ _)
    fun _ => ite (fun _ => reject _ _) fun _ => ite (fun _ => report _ _) fun _ => done

theorem anyWord : q.Takes S Parser.anyWord := by
  refine peek fun z => ?_
  split
  · exact unexpected _
  · next word hword =>
    exact advance (Kind.ne_eof hword rfl) (Kind.ne_semicolon hword rfl) fun _ => done

theorem ident : q.Takes S Parser.ident :=
  take anyWord fun _ => bind (checkUnreserved _ _) fun _ => context (fun _ => rfl) fun _ =>
    ite (fun _ => reject _ _) fun _ => done

theorem checkIfNever (i : Ident) : q.Steady S (Parser.checkIfNever i) :=
  context (fun _ => rfl) fun _ => ite (fun _ => checkUnreserved _ _) fun _ => done

theorem propertyWord : q.Takes S Parser.propertyWord :=
  take anyWord fun _ => bind (checkIfNever _) fun _ => done

theorem privateName : q.Takes S Parser.privateName := by
  refine peek fun z => ?_
  split
  · next word hword =>
    exact advance (by simp [hword]) (by simp [hword]) fun _ => ite (fun _ => reject _ _) fun _ =>
      bind (checkIfNever _) fun _ => done
  · exact unexpected _

end Runs

/-! Repetitions. -/

variable {turns : Nat}

theorem collectFrom {turn : σ → Parser (Parser.Turn σ α)} {U : Parser.Turn σ α → Prop} {P : Prop}
    {k : Nat} (hturn : ∀ x, q.Runs .anywhere (fun _ => k) U (fun _ => P) (turn x)) (x : σ) :
    q.Runs .anywhere (fun _ => k) (fun _ => False) (fun _ => P)
      (Parser.collectFrom turn turns x) := by
  induction turns generalizing x with
  | zero => exact .fails fun _ _ _ _ h => Parser.fail_eq_ok.1 h
  | succ turns ih =>
    refine .also (hturn x) fun r => ?_
    cases r with
    | stop items => exact .done
    | more items next => exact .map (ih next)

theorem collect {turn : Parser (Parser.Turn Unit α)} {U : Parser.Turn Unit α → Prop} {P : Prop}
    {k : Nat} (hturn : q.Runs .anywhere (fun _ => k) U (fun _ => P) turn) :
    q.Runs .anywhere (fun _ => k) (fun _ => False) (fun _ => P) (Parser.collect turns turn) :=
  collectFrom (fun _ => hturn) ()

/-- What a turn may look at: nothing if it has taken what ends the repetition. -/
def left : Parser.Turn σ α → Nat
  | .stop _ => 0
  | .more .. => 1

/-- A repetition up to a token that is taken. -/
theorem collectFrom_closed {turn : σ → Parser (Parser.Turn σ α)}
    (hturn : ∀ x, q.Runs .anywhere left (fun _ => True) Parser.Turn.GoesOn (turn x)) (x : σ) :
    q.Takes .anywhere (Parser.collectFrom turn turns x) := by
  induction turns generalizing x with
  | zero => exact .fails fun _ _ _ _ h => Parser.fail_eq_ok.1 h
  | succ turns ih =>
    refine .seq (V := fun r _ => r.GoesOn) (hturn x) (fun r => ?_) (fun r _ => ?_)
      fun _ _ _ => Or.inl trivial
    · cases r with
      | stop items => exact .pure id
      | more items next => exact .map (ih next)
    · cases r with
      | stop items => exact Or.inl ⟨id, Nat.le_refl _⟩
      | more items next => exact Or.inr ⟨trivial, Nat.le_refl _⟩

theorem collect_closed {turn : Parser (Parser.Turn Unit α)}
    (hturn : q.Runs .anywhere left (fun _ => True) Parser.Turn.GoesOn turn) :
    q.Takes .anywhere (Parser.collect turns turn) :=
  collectFrom_closed (fun _ => hturn) ()

theorem extend {step : α → Parser (Option α)} {U : Option α → Prop}
    (hstep : ∀ x, q.Runs .anywhere (fun _ => 0) U (fun _ => False) (step x)) (x : α) :
    q.Steady .anywhere (Parser.extend step turns x) := by
  induction turns generalizing x with
  | zero => exact .fails fun _ _ _ _ h => Parser.fail_eq_ok.1 h
  | succ turns ih =>
    refine .bind (hstep x) fun r => ?_
    cases r with
    | none => exact .done
    | some y => exact ih y

/-- A turn that always goes on may look at the token behind it. -/
theorem Runs.goesOn {turn : Parser (Parser.Turn σ α)} {S : Site}
    {T e : Parser.Turn σ α → Prop} (hturn : q.Runs S (fun _ => 1) T e turn)
    (hmore : ∀ {c s r t}, turn c s = .ok r t → r.GoesOn) :
    q.Runs S left (fun r => T r ∨ ¬ r.GoesOn) Parser.Turn.GoesOn turn := by
  intro c s r t hc hS h
  have hrun := hturn hc hS h
  have hgoes := hmore h
  refine ⟨hrun.suffix, ?_, fun hnot => absurd hgoes hnot, fun hleft => hrun.resumes ?_⟩
  · rintro (hT | hnot)
    · exact hrun.takes hT
    · exact absurd hgoes hnot
  · cases r with
    | stop items => exact hgoes.elim
    | more items next => exact hleft

/-- Items that look at the token behind them are followed by a comma or the closing punctuator. -/
theorem separated {item : Parser α} {close : Punct} {U : α → Prop} (hclose : close ≠ .semicolon)
    (hitem : q.Inner .anywhere U item) :
    q.Takes .anywhere (Parser.separated turns close item) := by
  have hmore : q.Runs .anywhere left (fun r => ¬ r.GoesOn) Parser.Turn.GoesOn
      (do return .more [← item] () : Parser (Parser.Turn Unit α)) := by
    refine (Runs.goesOn (.also hitem fun _ => .done) fun h => ?_).mono fun _ => Or.inr
    obtain ⟨a, u, -, hr⟩ := Parser.bind_eq_ok.1 h
    obtain ⟨rfl, -⟩ := Parser.pure_eq_ok.1 hr
    trivial
  have hrest : q.Runs .anywhere left (fun _ => True) Parser.Turn.GoesOn
      (do
        if ← Parser.accept close then return .stop []
        else
          let _ ← Parser.expect .comma
          if ← Parser.accept close then return .stop []
          else return .more [← item] () : Parser (Parser.Turn Unit α)) := by
    refine .accept_closer hclose (fun _ => Or.inl trivial) .done (.take (.expect nofun) fun _ =>
      .accept_closer hclose (fun r => ?_) .done hmore)
    cases r with
    | stop items => exact Or.inl id
    | more items next => exact Or.inr Nat.one_pos
  exact .accept_closer hclose (fun _ => Or.inl trivial) .done
    (.inner hitem fun _ => .map (collect_closed hrest))

end Endings

end JsClass
