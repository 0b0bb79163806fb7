import JsClass.Proofs.Grammar.Repeat
import JsClass.Proofs.Grammar.Super

/-!
What can go wrong in a run. A rule that is given enough turns for the tokens to come ends with a
problem to report, if it does not succeed; only a number that cannot be read stops it otherwise.
What a rule takes of the tokens bounds the rules behind it.
-/
namespace JsClass

variable {α β σ : Type} {c : Context} {r s t : State}

/-- A number's text must have a value. -/
def Token.IsLegible (x : Token) : Prop := ∀ raw, x.kind = .number raw → (Numeral.ofText? raw).isSome

/-- A fault that the tokens to come account for. -/
def Fault.IsExplained (tokens : List Token) : Fault → Prop
  | .rejected _ => True
  | .unreadableNumber => ∃ x ∈ tokens, ¬ x.IsLegible
  | .noClass | .exhausted => False

theorem Fault.IsExplained.mono {f : Fault} {tokens more : List Token} (h : f.IsExplained tokens)
    (hsub : tokens <:+ more) : f.IsExplained more := by
  cases f with
  | rejected d => trivial
  | unreadableNumber =>
    obtain ⟨x, hx, hlegible⟩ := h
    exact ⟨x, hsub.subset hx, hlegible⟩
  | noClass | exhausted => exact h

/-- What every successful run keeps: it only takes tokens, and it leaves the classes that it
enters. -/
structure State.Passes (s t : State) : Prop where
  pending : t.pending <:+ s.pending
  depth : t.scope.depth = s.scope.depth

namespace State

theorem Passes.refl (s : State) : s.Passes s := ⟨List.suffix_rfl, rfl⟩

theorem Passes.trans (hrs : r.Passes s) (hst : s.Passes t) : r.Passes t :=
  ⟨hst.pending.trans hrs.pending, hst.depth.trans hrs.depth⟩

theorem Passes.length_le (h : s.Passes t) : t.pending.length ≤ s.pending.length :=
  h.pending.length_le

theorem passes_skip (s : State) : s.Passes s.skip := ⟨List.tail_suffix _, rfl⟩

end State

/-- The end of input is not among the tokens, so every other token can be taken. -/
theorem Context.next_mem (hc : c.finish.kind = .eof) (hk : (c.next s).kind ≠ .eof) :
    c.next s ∈ s.pending ∧ s.skip.pending.length < s.pending.length := by
  rw [Context.pending_eq hc hk]
  exact ⟨List.mem_cons_self, Nat.lt_succ_self _⟩

/-- A kind that means something is not the end of input. -/
theorem Kind.ne_eof {f : Kind → Option α} {k : Kind} {a : α} (h : f k = some a)
    (hend : f .eof = none) : k ≠ .eof := by
  rintro rfl
  rw [hend] at h
  cases h

namespace Reply

variable {T U V : β → Prop} {x : Reply β}

/-- A run that began at `s` ends well, or with a fault that is accounted for. If `T` holds of its
value, it has taken a token. -/
def Settled (s : State) (T : β → Prop) : Reply β → Prop
  | .ok b t => s.Passes t ∧ (T b → t.pending.length < s.pending.length)
  | .error f _ => f.IsExplained s.pending

theorem Settled.mono (h : x.Settled s T) (hT : ∀ b, U b → T b) : x.Settled s U := by
  cases x with
  | ok b t => exact ⟨h.1, fun hb => h.2 (hT b hb)⟩
  | error f t => exact h

/-- What is so from a later state on is so from an earlier one on. -/
theorem Settled.since (h : x.Settled t T) (hst : s.Passes t) : x.Settled s T := by
  cases x with
  | ok b u =>
    exact ⟨hst.trans h.1, fun hb => Nat.lt_of_lt_of_le (h.2 hb) hst.length_le⟩
  | error f u => exact Fault.IsExplained.mono h hst.pending

/-- Behind a token that was taken, the rest need not take another. -/
theorem Settled.behind (h : x.Settled t V) (hst : s.Passes t)
    (hlt : t.pending.length < s.pending.length) : x.Settled s T := by
  cases x with
  | ok b u => exact ⟨hst.trans h.1, fun _ => Nat.lt_of_le_of_lt h.1.length_le hlt⟩
  | error f u => exact Fault.IsExplained.mono h hst.pending

end Reply

theorem Reply.Settled.bind {p : Parser α} {f : α → Parser β} {U : α → Prop} {T : β → Prop}
    (hp : (p c r).Settled s U)
    (hf : ∀ a t, s.Passes t → (U a → t.pending.length < s.pending.length) → p c r = .ok a t →
      (f a c t).Settled s T) :
    ((p >>= f) c r).Settled s T := by
  rw [Parser.bind_apply]
  cases hrun : p c r with
  | ok a t =>
    rw [hrun] at hp
    exact hf a t hp.1 hp.2 hrun
  | error e t =>
    rw [hrun] at hp
    exact hp

/-! Depths of scopes. -/

namespace Scope

theorem use_depth (s : Scope) (name : String) (pos : Position) :
    (s.use name pos).1 ≠ .error .noClass ∧ (s.use name pos).2.depth = s.depth := by
  obtain ⟨frames⟩ := s
  cases frames with
  | nil => simp [use]
  | cons frame outer =>
    unfold use
    simp only
    split <;> simp [depth]

theorem declare_depth {s : Scope} (hs : 0 < s.depth) (name : String) (kind : ElementKind)
    (pos : Position) :
    (s.declare name kind pos).1 ≠ .error .noClass ∧
      (s.declare name kind pos).2.depth = s.depth := by
  obtain ⟨frames⟩ := s
  cases frames with
  | nil => cases hs
  | cons frame outer =>
    unfold declare
    simp only
    split
    · simp [depth]
    · split <;> simp [depth]

theorem exit_depth {s : Scope} (hs : 0 < s.depth) :
    s.exit.1 ≠ .error .noClass ∧ s.exit.2.depth + 1 = s.depth := by
  obtain ⟨frames⟩ := s
  match frames, hs with
  | [frame], _ =>
    unfold exit
    simp only
    split <;> simp [depth, empty]
  | _ :: _ :: _, _ => simp [exit, depth]

end Scope

/-! Places where a rule may begin. -/

/-- What stays so while rules run. -/
class Site.Stable (S : Site) : Prop where
  passes : ∀ {c s t}, S c s → s.Passes t → S c t

namespace Site

/-- In the body of a class with private names. -/
def inBody : Site := fun _ s => 0 < s.scope.depth

/-- In the body of a class, which has private names in one dialect only. -/
def inClass : Site := fun c s => c.dialect = .withPrivate → 0 < s.scope.depth

/-- Where a token is left. -/
def filled : Site := fun c s => (c.next s).kind ≠ .eof

/-- Where the token `x` comes next. -/
def before (x : Token) : Site := fun c s => c.next s = x

theorem filled_of_before {x : Token} (hx : x.kind ≠ .eof) (h : before x c s) : filled c s := by
  unfold before filled at *
  rwa [h]

instance : Site.anywhere.Stable := ⟨fun _ _ => trivial⟩

instance : inBody.Stable where
  passes h hst := by
    unfold inBody at *
    rwa [hst.depth]

instance : inClass.Stable where
  passes h hst hd := by
    rw [hst.depth]
    exact h hd

end Site

namespace Parser

variable {m n : Nat} {S S' : Site} {T T' : β → Prop} {U : α → Prop}

/-- Where less than `m` tokens are to come, the rule ends well or with a fault that is accounted
for. -/
def Safe (m : Nat) (S : Site) (T : β → Prop) (p : Parser β) : Prop :=
  ∀ ⦃c s⦄, c.finish.kind = .eof → s.pending.length < m → S c s → (p c s).Settled s T

/-- A rule that always takes a token. -/
abbrev Takes (m : Nat) (S : Site) (p : Parser β) : Prop := p.Safe m S fun _ => True

/-- A rule that may take nothing. -/
abbrev Steady (m : Nat) (S : Site) (p : Parser β) : Prop := p.Safe m S fun _ => False

theorem advance_apply (c : Context) (s : State) : Parser.advance c s = .ok (c.next s) s.skip :=
  advance_eq_ok.2 ⟨rfl, rfl⟩

namespace Safe

theorem mono {p : Parser β} (hp : p.Safe n S T) (hm : m ≤ n) (hT : ∀ b, T' b → T b) :
    p.Safe m S T' :=
  fun _ _ hc hs hS => (hp hc (Nat.lt_of_lt_of_le hs hm) hS).mono hT

/-- With fewer tokens to come. -/
theorem fewer {p : Parser β} (hp : p.Safe (m + 1) S T) : p.Safe m S T :=
  hp.mono (Nat.le_succ m) fun _ h => h

theorem steady {p : Parser β} (hp : p.Safe m S T) : p.Steady m S :=
  hp.mono (Nat.le_refl m) fun _ => False.elim

/-- Less may be asked of a rule that takes a token. -/
theorem weaken {p : Parser β} (hp : p.Takes m S) : p.Safe m S T :=
  hp.mono (Nat.le_refl m) fun _ _ => trivial

theorem site {p : Parser β} (hp : p.Safe m S T) (hS : ∀ c s, S' c s → S c s) : p.Safe m S' T :=
  fun _ _ hc hs h => hp hc hs (hS _ _ h)

/-- A rule for any place is one for every place. -/
theorem anyplace {p : Parser β} (hp : p.Safe m .anywhere T) : p.Safe m S T :=
  hp.site fun _ _ _ => trivial

/-- Where no token may come, there is nothing to show. -/
theorem zero {p : Parser β} : p.Safe 0 S T := fun _ _ _ hs => absurd hs (Nat.not_lt_zero _)

theorem pure {b : β} (hb : ¬ T b) : Safe m S T (Pure.pure b) :=
  fun _ s _ _ _ => ⟨.refl s, fun h => absurd h hb⟩

theorem done {b : β} : Steady m S (Pure.pure b) := pure id

theorem reject (cause : Cause) (pos : Position) : Safe m S T (Parser.reject cause pos) :=
  fun _ _ _ _ _ => trivial

theorem report (cause : Cause) (pos : Position) : (Parser.report cause pos).Steady m S :=
  fun _ _ _ _ _ => ⟨⟨List.suffix_rfl, rfl⟩, False.elim⟩

theorem unexpected (x : Token) : Safe m S T (Parser.unexpected x) := by
  unfold Parser.unexpected
  split
  · exact reject _ _
  · exact reject _ _
  · exact reject _ _

theorem unexpectedNext : Safe m S T Parser.unexpectedNext :=
  fun _ _ hc hs hS => unexpected _ hc hs hS

theorem bind {p : Parser α} {f : α → Parser β} [S.Stable] (hp : p.Safe m S U)
    (hf : ∀ a, (f a).Safe m S T) : (p >>= f).Safe m S T := by
  intro c s hc hs hS
  refine (hp hc hs hS).bind fun a t hst _ _ => ?_
  exact (hf a hc (Nat.lt_of_le_of_lt hst.length_le hs) (Site.Stable.passes hS hst)).since hst

/-- Behind a rule that takes a token, one token less is to come. -/
theorem first {p : Parser α} {f : α → Parser β} {V : β → Prop} [S.Stable] (hp : p.Takes (m + 1) S)
    (hf : ∀ a, (f a).Safe m S V) : (p >>= f).Safe (m + 1) S T := by
  intro c s hc hs hS
  refine (hp hc hs hS).bind fun a t hst hlt _ => ?_
  have hless : t.pending.length < m := by
    have := hlt trivial
    omega
  exact (hf a hc hless (Site.Stable.passes hS hst)).behind hst (hlt trivial)

theorem take {p : Parser α} {f : α → Parser β} {V : β → Prop} [S.Stable] (hp : p.Takes m S)
    (hf : ∀ a, (f a).Safe m S V) : (p >>= f).Safe m S T := by
  cases m with
  | zero => exact zero
  | succ m => exact first hp fun a => (hf a).fewer

/-- Whether the first rule takes a token may depend on its value. -/
theorem bind_of {p : Parser α} {f : α → Parser β} [S.Stable] (hp : p.Safe m S U)
    (hf : ∀ a, (f a).Safe m S fun b => T b ∧ ¬ U a) : (p >>= f).Safe m S T := by
  intro c s hc hs hS
  refine (hp hc hs hS).bind fun a t hst hlt _ => ?_
  have hrest := hf a hc (Nat.lt_of_le_of_lt hst.length_le hs) (Site.Stable.passes hS hst)
  by_cases ha : U a
  · exact hrest.behind hst (hlt ha)
  · exact (hrest.mono fun b hb => ⟨hb, ha⟩).since hst

/-- The value that a rule gives does not matter. -/
theorem map {p : Parser α} {f : α → β} (hp : p.Takes m S) :
    (p >>= fun a => Pure.pure (f a)).Takes m S :=
  fun _ _ hc hs hS => (hp hc hs hS).bind fun _ _ hst hlt _ => ⟨hst, fun _ => hlt trivial⟩

/-- What a rule takes may be read off its successful runs. -/
theorem takes_of {p : Parser β} (hp : p.Safe m S T')
    (hT : ∀ {c s b t}, c.finish.kind = .eof → p c s = .ok b t → T b →
      t.pending.length < s.pending.length) : p.Safe m S T := by
  intro c s hc hs hS
  have hrun := hp hc hs hS
  cases hpb : p c s with
  | ok b t =>
    rw [hpb] at hrun
    exact ⟨hrun.1, hT hc hpb⟩
  | error e t =>
    rw [hpb] at hrun
    exact hrun

theorem ite {P : Prop} [Decidable P] {p q : Parser β} (hp : P → p.Safe m S T)
    (hq : ¬ P → q.Safe m S T) : Safe m S T (if P then p else q) := by
  split
  · exact hp ‹_›
  · exact hq ‹_›

/-! Looks at what comes next. -/

/-- A look that shows something of the place. -/
theorem look {p : Parser α} {f : α → Parser β}
    (hp : ∀ c s, ∃ a, p c s = .ok a s) (hf : ∀ a, (f a).Safe m S T) : (p >>= f).Safe m S T := by
  intro c s hc hs hS
  obtain ⟨a, ha⟩ := hp c s
  rw [bind_apply, ha]
  exact hf a hc hs hS

theorem context {f : Context → Parser β} (hf : ∀ d, (f d).Safe m S T) :
    (Parser.context >>= f).Safe m S T :=
  look (fun _ _ => ⟨_, rfl⟩) hf

/-- A look at the context that the place depends on. -/
theorem context_of {f : Context → Parser β}
    (hf : ∀ d, (f d).Safe m (fun c s => c = d ∧ S c s) T) : (Parser.context >>= f).Safe m S T :=
  fun _ _ hc hs hS => hf _ hc hs ⟨rfl, hS⟩

theorem peekAt {f : Token → Parser β} (k : Nat) (hf : ∀ x, (f x).Safe m S T) :
    (Parser.peekAt k >>= f).Safe m S T :=
  look (fun _ _ => ⟨_, rfl⟩) hf

theorem checkKind {f : Bool → Parser β} (k : Kind) (hf : ∀ b, (f b).Safe m S T) :
    (Parser.checkKind k >>= f).Safe m S T :=
  look (fun _ _ => ⟨_, rfl⟩) hf

theorem check {f : Bool → Parser β} (p : Punct) (hf : ∀ b, (f b).Safe m S T) :
    (Parser.check p >>= f).Safe m S T :=
  checkKind _ hf

theorem canInsertSemicolon {f : Bool → Parser β} (hf : ∀ b, (f b).Safe m S T) :
    (Parser.canInsertSemicolon >>= f).Safe m S T :=
  look (fun _ _ => ⟨_, rfl⟩) hf

/-- A look that is not used to take the token. -/
theorem glance {f : Token → Parser β} (hf : ∀ x, (f x).Safe m S T) :
    (Parser.peek >>= f).Safe m S T :=
  look (fun _ _ => ⟨_, rfl⟩) hf

theorem peek {f : Token → Parser β} (hf : ∀ x, (f x).Safe m (.before x) T) :
    (Parser.peek >>= f).Safe m S T :=
  fun _ _ hc hs _ => hf _ hc hs rfl

/-! Steps that take a token. -/

theorem advance_filled {f : Token → Parser β} {V : β → Prop} (hf : ∀ y, (f y).Safe m .anywhere V) :
    (Parser.advance >>= f).Safe (m + 1) .filled T := by
  intro c s hc hs hS
  have hlt := (Context.next_mem hc hS).2
  rw [bind_apply, advance_apply]
  exact (hf _ hc (by omega) trivial).behind s.passes_skip hlt

theorem advance {f : Token → Parser β} {V : β → Prop} {x : Token} (hx : x.kind ≠ .eof)
    (hf : ∀ y, (f y).Safe m .anywhere V) : (Parser.advance >>= f).Safe (m + 1) (.before x) T :=
  (advance_filled hf).site fun _ _ => Site.filled_of_before hx

theorem advance_steady : Parser.advance.Steady m S := by
  intro c s hc hs hS
  rw [advance_apply]
  exact ⟨s.passes_skip, False.elim⟩

theorem expectKind {k : Kind} (hk : k ≠ .eof) : (Parser.expectKind k).Takes m S := by
  intro c s hc hs hS
  unfold Parser.expectKind
  rw [bind_apply]
  show ((if (c.next s).kind == k then Parser.advance else Parser.unexpected _) c s).Settled s _
  split
  · next hnext =>
    have hlt := (Context.next_mem hc (by rwa [beq_iff_eq.1 hnext])).2
    rw [advance_apply]
    exact ⟨s.passes_skip, fun _ => hlt⟩
  · exact unexpected _ hc hs hS

theorem expect (p : Punct) : (Parser.expect p).Takes m S := expectKind nofun

theorem expectKeyword (k : Keyword) : (Parser.expectKeyword k).Takes m S := expectKind nofun

/-- A token is taken if and only if it is there. -/
theorem acceptKind {k : Kind} (hk : k ≠ .eof) : (Parser.acceptKind k).Safe m S (· = true) := by
  intro c s hc hs hS
  by_cases hnext : (c.next s).kind = k
  · have hrun : Parser.acceptKind k c s = .ok true s.skip :=
      acceptKind_eq_ok.2 (Or.inl ⟨hnext, rfl, rfl⟩)
    rw [hrun]
    exact ⟨s.passes_skip, fun _ => (Context.next_mem hc (hnext ▸ hk)).2⟩
  · have hrun : Parser.acceptKind k c s = .ok false s :=
      acceptKind_eq_ok.2 (Or.inr ⟨hnext, rfl, rfl⟩)
    rw [hrun]
    exact ⟨.refl s, nofun⟩

/-- Behind a token that was there, the rest need not take another. -/
theorem acceptKind_ite {k : Kind} {x y : Parser β} {V : β → Prop} [S.Stable] (hk : k ≠ .eof)
    (hx : x.Safe m S V) (hy : y.Safe m S T) :
    (Parser.acceptKind k >>= fun b => if b then x else y).Safe m S T := by
  refine bind_of (acceptKind hk) fun b => ite (fun hb => ?_) fun _ => ?_
  · exact hx.mono (Nat.le_refl m) fun _ h => absurd hb h.2
  · exact hy.mono (Nat.le_refl m) fun _ h => h.1

theorem accept {p : Punct} {x y : Parser β} {V : β → Prop} [S.Stable] (hx : x.Safe m S V)
    (hy : y.Safe m S T) : (Parser.accept p >>= fun b => if b then x else y).Safe m S T :=
  acceptKind_ite nofun hx hy

theorem acceptKeyword {k : Keyword} {x y : Parser β} {V : β → Prop} [S.Stable] (hx : x.Safe m S V)
    (hy : y.Safe m S T) : (Parser.acceptKeyword k >>= fun b => if b then x else y).Safe m S T :=
  acceptKind_ite nofun hx hy

theorem accept_steady (p : Punct) : (Parser.accept p).Steady m S :=
  (acceptKind (k := .punct p) nofun).mono (Nat.le_refl m) fun _ => False.elim

theorem semicolon [S.Stable] : Parser.semicolon.Steady m S :=
  accept done (canInsertSemicolon fun _ => ite (fun _ => done) fun _ => unexpectedNext)

/-! Words. -/

theorem checkUnreserved (word : String) (pos : Position) :
    (Parser.checkUnreserved word pos).Steady m S :=
  context fun _ => ite (fun _ => reject _ _) fun _ => ite (fun _ => reject _ _) fun _ =>
    ite (fun _ => reject _ _) fun _ => ite (fun _ => report _ _) fun _ => done

theorem anyWord : Parser.anyWord.Takes m S := by
  cases m with
  | zero => exact zero
  | succ m =>
    refine peek fun x => ?_
    split
    · exact unexpected _
    · next word hword =>
      exact advance (Kind.ne_eof hword rfl) fun _ => done

theorem ident [S.Stable] : Parser.ident.Takes m S :=
  take anyWord fun _ => bind (checkUnreserved _ _) fun _ => context fun _ =>
    ite (fun _ => reject _ _) fun _ => done

theorem checkIfNever (i : Ident) : (Parser.checkIfNever i).Steady m S :=
  context fun _ => ite (fun _ => checkUnreserved _ _) fun _ => done

theorem propertyWord [S.Stable] : Parser.propertyWord.Takes m S :=
  take anyWord fun _ => bind (checkIfNever _) fun _ => done

theorem privateName : Parser.privateName.Takes m S := by
  cases m with
  | zero => exact zero
  | succ m =>
    refine peek fun x => ?_
    split
    · next word hword =>
      exact advance (by simp [hword]) fun _ => ite (fun _ => reject _ _) fun _ =>
        bind (checkIfNever _) fun _ => done
    · exact unexpected _

/-! Contexts and class bodies. -/

theorem within {change : Context → Context} {p : Parser β}
    (hfinish : ∀ c, (change c).finish = c.finish) (hS : ∀ c s, S c s → S' (change c) s)
    (hp : p.Safe m S' T) : (Parser.within change p).Safe m S T := by
  intro c s hc hs hSs
  rw [within_apply]
  exact hp (by rwa [hfinish]) hs (hS c s hSs)

/-- An operation that finds the class it needs, and stays in it. -/
theorem onScope {op : Scope → Scope.Attempt}
    (hop : ∀ c s, S c s → (op s.scope).1 ≠ .error .noClass ∧
      (op s.scope).2.depth = s.scope.depth) : (Parser.onScope op).Steady m S := by
  intro c s hc hs hS
  obtain ⟨hclass, hdepth⟩ := hop c s hS
  unfold Parser.onScope
  split
  · next scope hscope =>
    rw [hscope] at hdepth
    exact ⟨⟨List.suffix_rfl, hdepth⟩, False.elim⟩
  · trivial
  · next scope hscope => exact absurd (congrArg Prod.fst hscope) hclass

theorem inClassBody {p : Parser β} (hp : p.Safe m .inBody T) :
    (Parser.inClassBody p).Safe m .anywhere T := by
  intro c s hc hs _
  have hrun := hp (s := { s with scope := s.scope.enter }) hc hs (Nat.succ_pos _)
  unfold Parser.inClassBody
  cases hbody : p c { s with scope := s.scope.enter } with
  | error e t =>
    rw [hbody] at hrun
    exact hrun
  | ok b t =>
    rw [hbody] at hrun
    obtain ⟨⟨hpending, hdepth⟩, hlt⟩ := hrun
    have hdepth : t.scope.depth = s.scope.depth + 1 := hdepth
    obtain ⟨hclass, hexit⟩ := Scope.exit_depth (s := t.scope) (hdepth ▸ Nat.succ_pos _)
    show ((Parser.onScope Scope.exit >>= fun _ => Pure.pure b) c t).Settled s T
    rw [bind_apply, Parser.onScope]
    rcases hscope : t.scope.exit with ⟨e | ⟨⟩, scope⟩
    · cases e with
      | diagnostic d => trivial
      | noClass => exact absurd (congrArg Prod.fst hscope) hclass
    · rw [hscope] at hexit
      exact ⟨⟨hpending, Nat.succ_inj.1 (hexit.trans hdepth)⟩, hlt⟩

end Safe

/-! Repetitions. -/

/-- A turn that goes on. -/
def Turn.GoesOn : Turn σ α → Prop
  | .stop _ => False
  | .more .. => True

/-- Every turn that goes on takes a token, so there are enough turns. -/
theorem collectFrom_safe {turn : σ → Parser (Turn σ α)} [S.Stable] {turns : Nat}
    (hturn : ∀ x, (turn x).Safe m S Turn.GoesOn) (hm : m ≤ turns) (x : σ) :
    (collectFrom turn turns x).Steady m S := by
  induction turns generalizing m x with
  | zero =>
    obtain rfl := Nat.le_zero.1 hm
    exact .zero
  | succ turns ih =>
    cases m with
    | zero => exact .zero
    | succ m =>
      intro c s hc hs hS
      refine (hturn x hc hs hS).bind fun r t hst hlt _ => ?_
      cases r with
      | stop items => exact ⟨hst, False.elim⟩
      | more items y =>
        have hless : t.pending.length < m := by
          have := hlt trivial
          omega
        have hrest := ih (fun z => (hturn z).fewer) (Nat.le_of_succ_le_succ hm) y
        exact (Safe.bind hrest (fun _ => .done) hc hless (Site.Stable.passes hS hst)).since hst

theorem collect_safe {turn : Parser (Turn Unit α)} [S.Stable] {turns : Nat}
    (hturn : turn.Safe m S Turn.GoesOn) (hm : m ≤ turns) : (collect turns turn).Steady m S :=
  collectFrom_safe (fun _ => hturn) hm ()

theorem extend_safe {step : α → Parser (Option α)} [S.Stable] {turns : Nat}
    (hstep : ∀ x, (step x).Safe m S (·.isSome)) (hm : m ≤ turns) (x : α) :
    (extend step turns x).Steady m S := by
  induction turns generalizing m x with
  | zero =>
    obtain rfl := Nat.le_zero.1 hm
    exact .zero
  | succ turns ih =>
    cases m with
    | zero => exact .zero
    | succ m =>
      intro c s hc hs hS
      refine (hstep x hc hs hS).bind fun r t hst hlt _ => ?_
      cases r with
      | none => exact ⟨hst, False.elim⟩
      | some y =>
        have hless : t.pending.length < m := by
          have := hlt rfl
          omega
        have hrest := ih (fun z => (hstep z).fewer) (Nat.le_of_succ_le_succ hm) y
        exact (hrest hc hless (Site.Stable.passes hS hst)).since hst

/-- The comma between items is taken, so an item may be empty. -/
theorem separated_safe {item : Parser α} {close : Punct} [S.Stable] {turns : Nat}
    (hitem : item.Steady m S) (hm : m ≤ turns) : (separated turns close item).Steady m S := by
  refine .accept .done (.bind hitem fun first => .bind (collect_safe ?_ hm) fun rest => .done)
  refine .accept .done (.take (.expect _) fun _ => .accept .done (.bind hitem fun x => .done))

end Parser

end JsClass
