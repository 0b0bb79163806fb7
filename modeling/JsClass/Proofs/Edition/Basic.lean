import JsClass.Proofs.Extension.Expressions
import JsClass.Proofs.Grammar.Super

/-!
Two editions side by side. A rule is carried over to another edition if every run whose value has
nothing newer in it is a run of that edition too. A run says besides what must have been before
it, so that rules can be put behind one another.
-/
namespace JsClass

variable {α β σ : Type} {e : Edition} {n : Node}

/-- The same place of a program in another edition. -/
def Context.inEdition (c : Context) (e : Edition) : Context :=
  { c with options := { c.options with edition := e } }

/-- Nothing in the tree is newer than the edition. -/
def Node.Fits (e : Edition) (n : Node) : Prop := ∀ x ∈ n.walk, x.shape.since ≤ e.number

/-- Nothing in the trees is newer than the edition. -/
def Node.AllFit (e : Edition) (ns : List Node) : Prop := ∀ n ∈ ns, n.Fits e

namespace Site

/-- Not before a function on the same line, which belongs to a word `async` before it. -/
def free : Site := fun c s =>
  ¬ ((c.next s).kind = .keyword .function_ ∧ (c.next s).newlineBefore = false)

theorem free_punct {c : Context} {s : State} {p : Punct} (h : (c.next s).kind = .punct p) :
    free c s := by
  rintro ⟨hk, -⟩
  rw [h] at hk
  cases hk

end Site

namespace Node

variable {s : Shape Node} {pos : Position} {ns ms : List Node}

theorem fits_iff : n.Fits e ↔ n.shape.since ≤ e.number ∧ AllFit e n.children := by
  simp only [Fits, AllFit, walk_eq n, List.mem_cons, List.mem_flatMap]
  constructor
  · intro h
    exact ⟨h n (Or.inl rfl), fun m hm x hx => h x (Or.inr ⟨m, hm, hx⟩)⟩
  · rintro ⟨hn, h⟩ x (rfl | ⟨m, hm, hx⟩)
    · exact hn
    · exact h m hm x hx

theorem fits_mk : (mk s pos).Fits e ↔ s.since ≤ e.number ∧ AllFit e s.children := fits_iff

@[simp] theorem fits_token {t : Token} : (t.node s).Fits e ↔
    s.since ≤ e.number ∧ AllFit e s.children := fits_iff

@[simp] theorem fits_wrap : (n.wrap s).Fits e ↔ s.since ≤ e.number ∧ AllFit e s.children := fits_iff

@[simp] theorem allFit_nil : AllFit e [] := by simp [AllFit]

@[simp] theorem allFit_cons : AllFit e (n :: ns) ↔ n.Fits e ∧ AllFit e ns := by
  simp [AllFit, or_imp, forall_and]

@[simp] theorem allFit_append : AllFit e (ns ++ ms) ↔ AllFit e ns ∧ AllFit e ms := by
  simp [AllFit, or_imp, forall_and]

end Node

namespace Parser

variable {R R' : Prop} {S S' T : Site} {U : α → Prop} {V : β → Prop} {D : α → Site} {E : β → Site}

theorem bind_bind {γ : Type} (p : Parser α) (f : α → Parser β) (f' : β → Parser γ) :
    (p >>= f) >>= f' = p >>= fun a => f a >>= f' := by
  funext c s
  simp only [bind_apply]
  cases p c s with
  | ok a t => rfl
  | error x t => rfl

theorem ite_bind {P : Prop} [Decidable P] (p q : Parser α) (f : α → Parser β) :
    (if P then p else q) >>= f = if P then p >>= f else q >>= f := by
  split
  · rfl
  · rfl

/-- A rule that does not ask for the edition. -/
def Ageless (p : Parser α) : Prop := ∀ c e, p (c.inEdition e) = p c

namespace Ageless

theorem pure (a : α) : Ageless (Pure.pure a) := fun _ _ => rfl

theorem bind {p : Parser α} {f : α → Parser β} (hp : p.Ageless) (hf : ∀ a, (f a).Ageless) :
    (p >>= f).Ageless := by
  intro c e
  funext s
  rw [bind_apply, bind_apply, hp]
  cases p c s with
  | ok a t => exact congrFun (hf a c e) t
  | error f t => rfl

theorem ite {P : Prop} [Decidable P] {p q : Parser α} (hp : p.Ageless) (hq : q.Ageless) :
    Ageless (if P then p else q) := by
  split
  · exact hp
  · exact hq

/-- Asking for anything but the edition. -/
theorem context {f : Context → Parser β} (he : ∀ c e, f (c.inEdition e) = f c)
    (hf : ∀ c, (f c).Ageless) : (Parser.context >>= f).Ageless := by
  intro c e
  funext s
  show f (c.inEdition e) (c.inEdition e) s = f c c s
  rw [he, hf]

theorem fail (f : Fault) : Ageless (Parser.fail f : Parser α) := fun _ _ => rfl

theorem reject (cause : Cause) (pos : Position) : Ageless (Parser.reject cause pos : Parser α) :=
  fun _ _ => rfl

theorem report (cause : Cause) (pos : Position) : Ageless (Parser.report cause pos) :=
  fun _ _ => rfl

theorem onScope (op : Scope → Scope.Attempt) : Ageless (Parser.onScope op) := fun _ _ => rfl

theorem peek : Ageless Parser.peek := fun _ _ => rfl

theorem peekAt (n : Nat) : Ageless (Parser.peekAt n) := fun _ _ => rfl

theorem advance : Ageless Parser.advance := fun _ _ => rfl

theorem pending : Ageless Parser.pending := fun _ _ => rfl

theorem restore (tokens : List Token) : Ageless (Parser.restore tokens) := fun _ _ => rfl

theorem check (p : Punct) : Ageless (Parser.check p) := fun _ _ => rfl

theorem checkWord (word : String) : Ageless (Parser.checkWord word) := fun _ _ => rfl

theorem atEnd : Ageless Parser.atEnd := fun _ _ => rfl

theorem canInsertSemicolon : Ageless Parser.canInsertSemicolon := fun _ _ => rfl

theorem acceptKind (k : Kind) : Ageless (Parser.acceptKind k) :=
  bind (fun _ _ => rfl) fun _ => ite (bind advance fun _ => pure _) (pure _)

theorem accept (p : Punct) : Ageless (Parser.accept p) := acceptKind _

theorem acceptKeyword (k : Keyword) : Ageless (Parser.acceptKeyword k) := acceptKind _

theorem unexpected (x : Token) : Ageless (Parser.unexpected x : Parser α) := by
  unfold Parser.unexpected
  split <;> exact reject _ _

theorem unexpectedNext : Ageless (Parser.unexpectedNext : Parser α) := bind peek unexpected

theorem expectKind (k : Kind) : Ageless (Parser.expectKind k) :=
  bind peek fun _ => ite advance (unexpected _)

theorem expect (p : Punct) : Ageless (Parser.expect p) := expectKind _

theorem expectKeyword (k : Keyword) : Ageless (Parser.expectKeyword k) := expectKind _

theorem semicolon : Ageless Parser.semicolon :=
  bind (accept _) fun _ => ite (pure _) (bind canInsertSemicolon fun _ =>
    ite (pure _) unexpectedNext)

theorem checkUnreserved (word : String) (pos : Position) :
    Ageless (Parser.checkUnreserved word pos) :=
  context (fun _ _ => rfl) fun _ => ite (reject _ _) (ite (reject _ _) (ite (reject _ _)
    (ite (report _ _) (pure _))))

theorem anyWord : Ageless Parser.anyWord := by
  refine bind peek fun x => ?_
  split
  · exact unexpected _
  · exact bind advance fun _ => pure _

theorem ident : Ageless Parser.ident :=
  bind anyWord fun _ => bind (checkUnreserved _ _) fun _ =>
    context (fun _ _ => rfl) fun _ => ite (reject _ _) (pure _)

theorem checkIfNever (i : Ident) : Ageless (Parser.checkIfNever i) :=
  context (fun _ _ => rfl) fun _ => ite (checkUnreserved _ _) (pure _)

theorem propertyWord : Ageless Parser.propertyWord :=
  bind anyWord fun _ => bind (checkIfNever _) fun _ => pure _

theorem privateName : Ageless Parser.privateName := by
  refine bind peek fun x => ?_
  split
  · exact bind advance fun _ => ite (reject _ _) (bind (checkIfNever _) fun _ => pure _)
  · exact unexpected _

end Ageless

/-- If a run ends where `E` holds, with a value that `V` holds of, then it began where `S` holds
and behind values for which `R` holds, and it is the same run in the edition `e`. -/
def Carries (e : Edition) (R : Prop) (S : Site) (V : β → Prop) (E : β → Site) (p : Parser β) :
    Prop :=
  ∀ ⦃c s b t⦄, p c s = .ok b t → V b → E b c t → R ∧ S c s ∧ p (c.inEdition e) s = .ok b t

/-- A rule for a node that may begin anywhere. -/
abbrev CarriesNode (e : Edition) (E : Site) (p : Parser Node) : Prop :=
  p.Carries e True .anywhere (Node.Fits e) fun _ => E

namespace Carries

theorem ageless {p : Parser β} (hp : p.Ageless) : p.Carries e True .anywhere V E := by
  intro c s b t h _ _
  rw [hp]
  exact ⟨trivial, trivial, h⟩

theorem pure {b : β} (h : ∀ c s, V b → E b c s → R ∧ S c s) :
    Carries e R S V E (Pure.pure b) := by
  intro c s b' t hb hV hE
  obtain ⟨rfl, rfl⟩ := pure_eq_ok.1 hb
  obtain ⟨hR, hS⟩ := h c s hV hE
  exact ⟨hR, hS, rfl⟩

/-- A node that is put together of what was read. -/
theorem node {s : Shape Node} {pos : Position} {E : Site}
    (h : s.since ≤ e.number → Node.AllFit e s.children → R) :
    Carries e R E (Node.Fits e) (fun _ => E) (Pure.pure ⟨s, pos⟩) :=
  pure fun _ _ hV hE => ⟨h (Node.fits_mk.1 hV).1 (Node.fits_mk.1 hV).2, hE⟩

theorem fail (f : Fault) : Carries e R S V E (Parser.fail f) := by
  intro c s b t h
  cases h

theorem reject (cause : Cause) (pos : Position) : Carries e R S V E (Parser.reject cause pos) :=
  fail _

theorem unexpected (x : Token) : Carries e R S V E (Parser.unexpected x) := by
  intro c s b t h
  exact (unexpected_eq_ok.1 h).elim

theorem unexpectedNext : Carries e R S V E Parser.unexpectedNext := by
  intro c s b t h
  exact (unexpectedNext_eq_ok.1 h).elim

/-- Less may be asked of a rule. -/
theorem mono {p : Parser β} (hp : p.Carries e R S V E) (hR : R → R') (hS : ∀ c s, S c s → S' c s)
    {E' : β → Site} (hE : ∀ b c s, E' b c s → E b c s) : p.Carries e R' S' V E' := by
  intro c s b t h hV hEt
  obtain ⟨hr, hs, hb⟩ := hp h hV (hE b c t hEt)
  exact ⟨hR hr, hS c s hs, hb⟩

/-- The second rule hands its demands on the first value and on the place between to the first. -/
theorem bind_also {p : Parser α} {f : α → Parser β} {Q : Prop} (hp : p.Carries e Q S U D)
    (hf : ∀ a, (f a).Carries e (R ∧ U a) (D a) V E) : (p >>= f).Carries e (R ∧ Q) S V E := by
  intro c s b t h hV hE
  obtain ⟨a, u, ha, hb⟩ := bind_eq_ok.1 h
  obtain ⟨⟨hR, hU⟩, hD, hb'⟩ := hf a hb hV hE
  obtain ⟨hQ, hS, ha'⟩ := hp ha hU hD
  exact ⟨⟨hR, hQ⟩, hS, bind_eq_ok.2 ⟨a, u, ha', hb'⟩⟩

theorem bind {p : Parser α} {f : α → Parser β} (hp : p.Carries e True S U D)
    (hf : ∀ a, (f a).Carries e (R ∧ U a) (D a) V E) : (p >>= f).Carries e R S V E :=
  (bind_also hp hf).mono And.left (fun _ _ h => h) fun _ _ _ h => h

/-- What is known of every value of the first rule may be used for the second. -/
theorem bind_of {p : Parser α} {f : α → Parser β} {P : α → Prop} (hp : p.Carries e True S U D)
    (hP : p.Returns P) (hf : ∀ a, P a → (f a).Carries e (R ∧ U a) (D a) V E) :
    (p >>= f).Carries e R S V E := by
  intro c s b t h hV hE
  obtain ⟨a, u, ha, hb⟩ := bind_eq_ok.1 h
  obtain ⟨⟨hR, hU⟩, hD, hb'⟩ := hf a (hP.of_ok ha) hb hV hE
  obtain ⟨-, hS, ha'⟩ := hp ha hU hD
  exact ⟨hR, hS, bind_eq_ok.2 ⟨a, u, ha', hb'⟩⟩

/-- A step that does not ask for the edition, and that fails where `S` does. -/
theorem take {p : Parser α} {f : α → Parser β} (hp : p.Ageless)
    (hS : ∀ {c s a u}, p c s = .ok a u → S c s)
    (hf : ∀ a, (f a).Carries e R .anywhere V E) : (p >>= f).Carries e R S V E := by
  intro c s b t h hV hE
  obtain ⟨a, u, ha, hb⟩ := bind_eq_ok.1 h
  obtain ⟨hR, -, hb'⟩ := hf a hb hV hE
  refine ⟨hR, hS ha, bind_eq_ok.2 ⟨a, u, ?_, hb'⟩⟩
  rw [hp]
  exact ha

theorem step {p : Parser α} {f : α → Parser β} (hp : p.Ageless)
    (hf : ∀ a, (f a).Carries e R .anywhere V E) : (p >>= f).Carries e R .anywhere V E :=
  take hp (fun _ => trivial) hf

/-- A check that stays where it is and shows something of the place. -/
theorem look {p : Parser α} {f : α → Parser β} {K : α → Site} (hp : p.Ageless)
    (hK : ∀ {c s a u}, p c s = .ok a u → K a c s ∧ s = u)
    (hf : ∀ a, (f a).Carries e R (fun c s => K a c s → S c s) V E) :
    (p >>= f).Carries e R S V E := by
  intro c s b t h hV hE
  obtain ⟨a, u, ha, hb⟩ := bind_eq_ok.1 h
  obtain ⟨hKa, rfl⟩ := hK ha
  obtain ⟨hR, hS, hb'⟩ := hf a hb hV hE
  refine ⟨hR, hS hKa, bind_eq_ok.2 ⟨a, s, ?_, hb'⟩⟩
  rw [hp]
  exact ha

/-- What a look shows need not be used. -/
theorem unlooked {K : Site} {p : Parser β} (hp : p.Carries e R S V E) :
    p.Carries e R (fun c s => K c s → S c s) V E := by
  intro c s b t h hV hE
  obtain ⟨hR, hS, hb⟩ := hp h hV hE
  exact ⟨hR, fun _ => hS, hb⟩

/-- What a look shows may settle where the rule begins. -/
theorem known {K : Site} {p : Parser β} (hS : ∀ {c s}, K c s → S c s)
    (hp : p.Carries e R .anywhere V E) : p.Carries e R (fun c s => K c s → S c s) V E := by
  intro c s b t h hV hE
  obtain ⟨hR, -, hb⟩ := hp h hV hE
  exact ⟨hR, hS, hb⟩

/-- A check that shows nothing. -/
theorem stay {p : Parser α} {f : α → Parser β} (hp : p.Ageless)
    (hs : ∀ {c s a u}, p c s = .ok a u → s = u) (hf : ∀ a, (f a).Carries e R S V E) :
    (p >>= f).Carries e R S V E :=
  look (K := fun _ => .anywhere) hp (fun h => ⟨trivial, hs h⟩) fun a => (hf a).unlooked

/-- Asking for anything but the edition. -/
theorem context {f : Context → Parser β} (he : ∀ c, f (c.inEdition e) = f c)
    (hf : ∀ c, (f c).Carries e R S V E) : (Parser.context >>= f).Carries e R S V E := by
  intro c s b t h hV hE
  obtain ⟨hR, hS, hb⟩ := hf c h hV hE
  refine ⟨hR, hS, ?_⟩
  show f (c.inEdition e) (c.inEdition e) s = .ok b t
  rw [he]
  exact hb

/-- A rule of the later editions beside the one of the early editions. What the early rule reads
in an early edition the later one reads too, and what the later one reads and has a place in an
early edition is read by the early rule. -/
theorem edition {late early : Parser β} (hlate : late.Carries e True .anywhere V E)
    (hearly : early.Carries e True .anywhere V E)
    (hnew : ∀ ⦃c s b t⦄, ¬ 8 ≤ c.options.edition.number → early c s = .ok b t → late c s = .ok b t)
    (hold : ∀ ⦃c s b t⦄, ¬ 8 ≤ e.number → late c s = .ok b t → V b → E b c t →
      early c s = .ok b t) :
    Carries e True .anywhere V E (do
      if 8 ≤ (← Parser.context).options.edition.number then late else early) := by
  intro c s b t h hV hE
  obtain ⟨_, _, hc, h⟩ := bind_eq_ok.1 h
  obtain ⟨rfl, rfl⟩ := context_eq_ok.1 hc
  refine ⟨trivial, trivial, bind_eq_ok.2 ⟨_, _, rfl, ite_eq_ok.2 ?_⟩⟩
  have hrun : late c s = .ok b t := by
    obtain ⟨-, h⟩ | ⟨hc, h⟩ := ite_eq_ok.1 h
    · exact h
    · exact hnew hc h
  by_cases he : 8 ≤ e.number
  · exact Or.inl ⟨he, (hlate hrun hV hE).2.2⟩
  · exact Or.inr ⟨he, (hearly (hold he hrun hV hE) hV hE).2.2⟩

theorem peek {f : Token → Parser β}
    (hf : ∀ x, (f x).Carries e R (fun c s => (c.next s).kind = x.kind → S c s) V E) :
    (Parser.peek >>= f).Carries e R S V E :=
  look .peek (fun h => ⟨congrArg Token.kind (peek_eq_ok.1 h).1, (peek_eq_ok.1 h).2⟩) hf

theorem expect {p : Punct} {f : Token → Parser β}
    (hS : ∀ {c : Context} {s : State}, (c.next s).kind = .punct p → S c s)
    (hf : ∀ x, (f x).Carries e R .anywhere V E) : (Parser.expect p >>= f).Carries e R S V E :=
  take (.expect p) (fun h => hS (expect_eq_ok.1 h).1) hf

theorem accept {p : Punct} {x y : Parser β}
    (hS : ∀ {c : Context} {s : State}, (c.next s).kind = .punct p → S c s)
    (hx : x.Carries e R .anywhere V E) (hy : y.Carries e R S V E) :
    (Parser.accept p >>= fun b => if b then x else y).Carries e R S V E := by
  intro c s b t h hV hE
  obtain ⟨r, u, hr, hb⟩ := bind_eq_ok.1 h
  have hr' : Parser.accept p (c.inEdition e) s = .ok r u := by rwa [Ageless.accept p]
  rcases accept_eq_ok.1 hr with ⟨hk, rfl, rfl⟩ | ⟨-, rfl, rfl⟩
  · obtain ⟨hR, -, hb'⟩ := hx hb hV hE
    exact ⟨hR, hS hk, bind_eq_ok.2 ⟨_, _, hr', hb'⟩⟩
  · obtain ⟨hR, hS, hb'⟩ := hy hb hV hE
    exact ⟨hR, hS, bind_eq_ok.2 ⟨_, _, hr', hb'⟩⟩

theorem check {p : Punct} {x y : Parser β}
    (hS : ∀ {c : Context} {s : State}, (c.next s).kind = .punct p → S c s)
    (hx : x.Carries e R .anywhere V E) (hy : y.Carries e R S V E) :
    (Parser.check p >>= fun b => if b then x else y).Carries e R S V E := by
  intro c s b t h hV hE
  obtain ⟨r, u, hr, hb⟩ := bind_eq_ok.1 h
  have hr' : Parser.check p (c.inEdition e) s = .ok r u := hr
  obtain ⟨hk, rfl⟩ := check_eq_ok.1 hr
  cases r with
  | true =>
    obtain ⟨hR, -, hb'⟩ := hx hb hV hE
    exact ⟨hR, hS (by simpa using hk), bind_eq_ok.2 ⟨_, _, hr', hb'⟩⟩
  | false =>
    obtain ⟨hR, hS, hb'⟩ := hy hb hV hE
    exact ⟨hR, hS, bind_eq_ok.2 ⟨_, _, hr', hb'⟩⟩

/-- No statement ends before a function on the same line. -/
theorem semicolon {f : Unit → Parser β} (hf : ∀ a, (f a).Carries e R .anywhere V E) :
    (Parser.semicolon >>= f).Carries e R .free V E := by
  refine take .semicolon ?_ hf
  intro c s a u h
  simp only [Parser.semicolon, bind_eq_ok, accept_eq_ok, ite_eq_ok, pure_eq_ok,
    canInsertSemicolon_eq_ok, unexpectedNext_eq_ok, and_false, or_false] at h
  rintro ⟨hk, hnewline⟩
  simp [hk, hnewline] at h

theorem ite {P : Prop} [Decidable P] {p q : Parser β} (hp : P → p.Carries e R S V E)
    (hq : ¬ P → q.Carries e R S V E) : Carries e R S V E (if P then p else q) := by
  split
  · exact hp ‹_›
  · exact hq ‹_›

/-- A change of context that leaves the edition and the end of input alone. -/
theorem within {change : Context → Context} {p : Parser β} {E : Site}
    (he : ∀ c, change (c.inEdition e) = (change c).inEdition e)
    (hE : ∀ c s, E c s → E (change c) s)
    (hp : p.Carries e R .anywhere V fun _ => E) :
    (Parser.within change p).Carries e R .anywhere V fun _ => E := by
  intro c s b t h hV hEt
  obtain ⟨hR, -, hb⟩ := hp h hV (hE c t hEt)
  refine ⟨hR, trivial, ?_⟩
  rw [within_apply, he]
  exact hb

theorem inClassBody {p : Parser β} (hp : p.Carries e R .anywhere V fun _ => .anywhere) :
    (Parser.inClassBody p).Carries e R .anywhere V fun _ => .anywhere := by
  intro c s b t h hV hE
  obtain ⟨u, hu, hrest⟩ := inClassBody_eq_ok.1 h
  obtain ⟨hR, -, hb⟩ := hp hu hV trivial
  exact ⟨hR, trivial, inClassBody_eq_ok.2 ⟨u, hb, hrest⟩⟩

theorem anywhere {p : Parser β} (hp : p.Carries e R S V E) : p.Carries e R .anywhere V E :=
  hp.mono id (fun _ _ _ => trivial) fun _ _ _ h => h

/-- What every run shows of its beginning need not be asked for. -/
theorem starts {p : Parser β} (hS : ∀ {c s b t}, p c s = .ok b t → S c s)
    (hp : p.Carries e R .anywhere V E) : p.Carries e R S V E := by
  intro c s b t h hV hE
  obtain ⟨hR, -, hb⟩ := hp h hV hE
  exact ⟨hR, hS h, hb⟩

end Carries

/-! Repetitions. -/

/-- Where a turn ends, by whether there is one more. -/
def Turn.site (S T : Site) : Turn σ β → Site
  | .stop _ => T
  | .more .. => S

/-- Every turn that goes on ends where the next one may begin. -/
theorem collectFrom_carries {turn : σ → Parser (Turn σ β)}
    (hturn : ∀ x, (turn x).Carries e True S (fun r => ∀ b ∈ r.items, V b) (Turn.site S T))
    (turns : Nat) (x : σ) :
    (collectFrom turn turns x).Carries e True S (fun bs => ∀ b ∈ bs, V b) fun _ => T := by
  induction turns generalizing x with
  | zero => exact .fail _
  | succ turns ih =>
    intro c s bs t h hV hE
    simp only [collectFrom, bind_eq_ok] at h
    obtain ⟨r, u, hr, h⟩ := h
    unfold collectFrom
    cases r with
    | stop found =>
      obtain ⟨rfl, rfl⟩ := pure_eq_ok.1 h
      obtain ⟨-, hS, hr'⟩ := hturn x hr hV hE
      exact ⟨trivial, hS, bind_eq_ok.2 ⟨_, _, hr', rfl⟩⟩
    | more found y =>
      simp only [bind_eq_ok, pure_eq_ok] at h
      obtain ⟨rest, v, hv, rfl, rfl⟩ := h
      obtain ⟨-, hu, hv'⟩ := ih y hv (fun b hb => hV b (List.mem_append_right _ hb)) hE
      obtain ⟨-, hS, hr'⟩ := hturn x hr (fun b hb => hV b (List.mem_append_left _ hb)) hu
      exact ⟨trivial, hS, bind_eq_ok.2 ⟨_, _, hr', bind_eq_ok.2 ⟨rest, v, hv', rfl⟩⟩⟩

theorem collect_carries {turn : Parser (Turn Unit β)}
    (hturn : turn.Carries e True S (fun r => ∀ b ∈ r.items, V b) (Turn.site S T))
    (turns : Nat) :
    (collect turns turn).Carries e True S (fun bs => ∀ b ∈ bs, V b) fun _ => T :=
  collectFrom_carries (fun _ => hturn) turns ()

theorem separated_carries {item : Parser β} (close : Punct)
    (hS : ∀ {c : Context} {s : State},
      (c.next s).kind = .punct .comma ∨ (c.next s).kind = .punct close → S c s)
    (hitem : item.Carries e True .anywhere V fun _ => S) (turns : Nat) :
    (separated turns close item).Carries e True .anywhere (fun bs => ∀ b ∈ bs, V b)
      fun _ => .anywhere := by
  refine .accept (fun _ => trivial) (.ageless (.pure _)) ?_
  refine .bind hitem fun first =>
    .bind (collect_carries (V := V) (T := .anywhere) ?_ turns) fun rest => .pure ?_
  · refine .accept (fun h => hS (Or.inr h)) (.pure fun _ _ _ _ => ⟨trivial, trivial⟩) ?_
    refine .expect (fun h => hS (Or.inl h)) fun _ => .accept (fun _ => trivial) ?_ ?_
    · exact .pure fun _ _ _ _ => ⟨trivial, trivial⟩
    refine .bind hitem fun x => .pure fun _ _ hV hE => ⟨⟨trivial, ?_⟩, hE⟩
    exact hV x (by simp [Turn.items])
  · intro _ _ hV _
    exact ⟨⟨⟨trivial, hV _ (by simp)⟩, fun b hb => hV b (by simp [hb])⟩, trivial⟩

/-- Every step goes on from what it was given, and ends where the next one may begin. -/
theorem extend_carries {step : Node → Parser (Option Node)}
    (hstep : ∀ x, (step x).Carries e (x.Fits e) S (fun r => (r.getD x).Fits e) fun _ => S)
    (turns : Nat) (x : Node) :
    (extend step turns x).Carries e (x.Fits e) S (Node.Fits e) fun _ => S := by
  induction turns generalizing x with
  | zero => exact .fail _
  | succ turns ih =>
    intro c s n t h hV hE
    simp only [extend, bind_eq_ok] at h
    obtain ⟨r, u, hr, h⟩ := h
    unfold extend
    cases r with
    | none =>
      obtain ⟨rfl, rfl⟩ := pure_eq_ok.1 h
      obtain ⟨hx, hS, hr'⟩ := hstep x hr hV hE
      exact ⟨hx, hS, bind_eq_ok.2 ⟨_, _, hr', rfl⟩⟩
    | some y =>
      obtain ⟨hy, hu, h'⟩ := ih y h hV hE
      obtain ⟨hx, hS, hr'⟩ := hstep x hr hy hu
      exact ⟨hx, hS, bind_eq_ok.2 ⟨_, _, hr', h'⟩⟩

end Parser

end JsClass
