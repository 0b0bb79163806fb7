import JsClass.Proofs.Safety.Basic

/-!
Brackets. What a rule takes is properly nested, whatever brackets are open before it: rules close
the brackets that they open, in order, and the rules behind an opening bracket close that one too.
-/
namespace JsClass

variable {α β σ : Type} {c : Context} {r s t : State} {st st' : List Punct}

/-- Closes the innermost bracket, if it is of the right kind. -/
def closeBracket (p : Punct) : List Punct → Option (List Punct)
  | [] => none
  | q :: st => if q = p then some st else none

/-- The brackets that are open behind a token, the innermost first, each given by the one that
closes it. -/
def Kind.nest (st : List Punct) : Kind → Option (List Punct)
  | .punct .lparen => some (.rparen :: st)
  | .punct .lbracket => some (.rbracket :: st)
  | .punct .lbrace => some (.rbrace :: st)
  | .punct .rparen => closeBracket .rparen st
  | .punct .rbracket => closeBracket .rbracket st
  | .punct .rbrace => closeBracket .rbrace st
  | _ => some st

/-- The brackets that are open behind some tokens; there are none if a bracket is closed that is
not open. -/
def nest (st : List Punct) : List Token → Option (List Punct)
  | [] => some st
  | t :: ts => (t.kind.nest st).bind (nest · ts)

theorem nest_append (xs ys : List Token) : nest st (xs ++ ys) = (nest st xs).bind (nest · ys) := by
  induction xs generalizing st with
  | nil => rfl
  | cons x xs ih =>
    rw [List.cons_append, nest, nest, Option.bind_assoc]
    exact congrArg _ (funext fun _ => ih)

/-- A kind that is no bracket. -/
def Kind.IsFlat (k : Kind) : Prop := ∀ st, k.nest st = some st

theorem Kind.isFlat_of_word? {k : Kind} {word : String} (h : k.word? = some word) : k.IsFlat := by
  intro st
  cases k <;> first | rfl | cases h

theorem Kind.isFlat_unary {k : Kind} {op : UnaryOp} (h : UnaryOp.ofKind? k = some op) : k.IsFlat :=
  of_find? (P := IsFlat) (fun op _ => by cases op <;> rfl) h

theorem Kind.isFlat_update {k : Kind} {op : UpdateOp} (h : UpdateOp.ofKind? k = some op) :
    k.IsFlat :=
  of_find? (P := IsFlat) (fun op _ => by cases op <;> rfl) h

theorem Kind.isFlat_binary {k : Kind} {op : BinaryOp} (h : BinaryOp.ofKind? k = some op) :
    k.IsFlat :=
  of_find? (P := IsFlat) (fun op _ => by cases op <;> rfl) h

theorem Kind.isFlat_assign {k : Kind} {op : AssignOp} (h : AssignOp.ofKind? k = some op) :
    k.IsFlat :=
  of_find? (P := IsFlat) (fun op _ => by cases op <;> rfl) h

/-! Runs. -/

/-- From one state to another tokens are taken that lead from some open brackets to others. -/
def State.Nests (s : State) (st : List Punct) (t : State) (st' : List Punct) : Prop :=
  ∃ taken, s.pending = taken ++ t.pending ∧ nest st taken = some st'

namespace State.Nests

variable {st'' : List Punct}

theorem of_eq (h : t.pending = s.pending) : s.Nests st t st := ⟨[], h.symm, rfl⟩

theorem trans (hrs : r.Nests st s st') (hst : s.Nests st' t st'') : r.Nests st t st'' := by
  obtain ⟨xs, hr, hxs⟩ := hrs
  obtain ⟨ys, hs, hys⟩ := hst
  refine ⟨xs ++ ys, by rw [hr, hs, List.append_assoc], ?_⟩
  rw [nest_append, hxs]
  exact hys

/-- Only the tokens to come matter. -/
theorem congr {u : State} (h : s.Nests st t st') (hp : u.pending = s.pending) :
    u.Nests st t st' := by
  obtain ⟨taken, hs, hnest⟩ := h
  exact ⟨taken, hp.trans hs, hnest⟩

theorem skip (hc : c.finish.kind = .eof) (h : (c.next s).kind.nest st = some st') :
    s.Nests st s.skip st' := by
  unfold Context.next at h
  cases hp : s.pending with
  | nil =>
    rw [hp, List.headD_nil, hc] at h
    cases h
    exact ⟨[], by simp [State.skip, hp], rfl⟩
  | cons x rest =>
    rw [hp, List.headD_cons] at h
    exact ⟨[x], by simp [State.skip, hp], by simp [nest, h]⟩

end State.Nests

/-- Where the token that comes next is no bracket. -/
def Site.flat : Site := fun c s => (c.next s).kind.IsFlat

namespace Parser

variable {S : Site} {post : β → List Punct} {p q : Parser β}

/-- A successful run of the rule takes tokens that lead from the open brackets `st` to those that
`post` says of its value. -/
def Nests (S : Site) (st : List Punct) (post : β → List Punct) (p : Parser β) : Prop :=
  ∀ ⦃c s b t⦄, c.finish.kind = .eof → S c s → p c s = .ok b t → s.Nests st t (post b)

/-- A rule that closes what it opens. -/
abbrev Closes (S : Site) (st : List Punct) (p : Parser β) : Prop := p.Nests S st fun _ => st

/-- A rule that closes what it opens, whatever is open before it. -/
abbrev Balanced (p : Parser β) : Prop := ∀ S st, p.Closes S st

/-- A rule that takes nothing. -/
def Still (p : Parser β) : Prop := ∀ ⦃c s b t⦄, p c s = .ok b t → t.pending = s.pending

/-! Rules that take nothing. -/

namespace Still

theorem pure {b : β} : (Pure.pure b : Parser β).Still := by
  intro c s b t h
  obtain ⟨-, rfl⟩ := pure_eq_ok.1 h
  rfl

theorem reject (cause : Cause) (pos : Position) : (Parser.reject cause pos : Parser β).Still :=
  fun _ _ _ _ h => (reject_eq_ok.1 h).elim

theorem report (cause : Cause) (pos : Position) : (Parser.report cause pos).Still := by
  intro c s b t h
  obtain rfl := report_eq_ok.1 h
  rfl

theorem look {x : Parser α} (h : ∀ c s, ∃ a, x c s = .ok a s) : x.Still := by
  intro c s b t hb
  obtain ⟨a, ha⟩ := h c s
  rw [ha] at hb
  cases hb
  rfl

theorem bind {x : Parser α} {f : α → Parser β} (hx : x.Still) (hf : ∀ a, (f a).Still) :
    (x >>= f).Still := by
  intro c s b t h
  obtain ⟨a, u, ha, hb⟩ := bind_eq_ok.1 h
  exact (hf a hb).trans (hx ha)

theorem ite {P : Prop} [Decidable P] (hp : p.Still) (hq : q.Still) :
    (if P then p else q : Parser β).Still := by
  split
  · exact hp
  · exact hq

theorem onScope (op : Scope → Scope.Attempt) : (Parser.onScope op).Still := by
  intro c s b t h
  obtain ⟨scope, -, rfl⟩ := onScope_eq_ok.1 h
  rfl

theorem context : Parser.context.Still := look fun _ _ => ⟨_, rfl⟩

theorem peek : Parser.peek.Still := look fun _ _ => ⟨_, rfl⟩

theorem checkUnreserved (word : String) (pos : Position) :
    (Parser.checkUnreserved word pos).Still :=
  bind context fun _ => ite (reject _ _) (ite (reject _ _) (ite (reject _ _)
    (ite (report _ _) pure)))

theorem checkIfNever (i : Ident) : (Parser.checkIfNever i).Still :=
  bind context fun _ => ite (checkUnreserved _ _) pure

end Still

namespace Nests

theorem still (hp : p.Still) : p.Closes S st :=
  fun _ _ _ _ _ _ h => .of_eq (hp h)

theorem pure {b : β} (h : post b = st) : Nests S st post (Pure.pure b) := by
  intro c s b' t _ _ hb
  obtain ⟨rfl, rfl⟩ := pure_eq_ok.1 hb
  rw [h]
  exact .of_eq rfl

theorem done {b : β} : Nests S st (fun _ => st) (Pure.pure b) := pure rfl

theorem reject (cause : Cause) (pos : Position) : Nests S st post (Parser.reject cause pos) :=
  fun _ _ _ _ _ _ h => (reject_eq_ok.1 h).elim

theorem unexpected (x : Token) : Nests S st post (Parser.unexpected x) :=
  fun _ _ _ _ _ _ h => (unexpected_eq_ok.1 h).elim

theorem unexpectedNext : Nests S st post Parser.unexpectedNext :=
  fun _ _ _ _ _ _ h => (unexpectedNext_eq_ok.1 h).elim

theorem bind {x : Parser α} {f : α → Parser β} {mid : α → List Punct} (hx : x.Nests S st mid)
    (hf : ∀ a, (f a).Nests .anywhere (mid a) post) : (x >>= f).Nests S st post := by
  intro c s b t hc hS h
  obtain ⟨a, u, ha, hb⟩ := bind_eq_ok.1 h
  exact (hx hc hS ha).trans (hf a hc trivial hb)

/-- Behind a rule that takes nothing. -/
theorem step {x : Parser α} {f : α → Parser β} (hx : x.Still)
    (hf : ∀ a, (f a).Nests .anywhere st post) : (x >>= f).Nests S st post :=
  bind (still hx) hf

/-- A look that does not leave the place. -/
theorem look {x : Parser α} {f : α → Parser β} (hx : ∀ c s, ∃ a, x c s = .ok a s)
    (hf : ∀ a, (f a).Nests S st post) : (x >>= f).Nests S st post := by
  intro c s b t hc hS h
  obtain ⟨a, ha⟩ := hx c s
  rw [bind_apply, ha] at h
  exact hf a hc hS h

/-- A look at the token that comes next. -/
theorem peek {f : Token → Parser β} (hf : ∀ x, (f x).Nests (.before x) st post) :
    (Parser.peek >>= f).Nests S st post :=
  fun _ _ _ _ hc _ h => hf _ hc rfl h

/-- A look for a token that shows whether it comes next. -/
theorem checkKind {f : Bool → Parser β} {k : Kind}
    (hf : ∀ b, (f b).Nests (fun c s => b = true → (c.next s).kind = k) st post) :
    (Parser.checkKind k >>= f).Nests S st post := by
  intro c s b t hc _ h
  obtain ⟨a, u, ha, hb⟩ := bind_eq_ok.1 h
  obtain ⟨rfl, rfl⟩ := checkKind_eq_ok.1 ha
  exact hf _ hc beq_iff_eq.1 hb

theorem ite {P : Prop} [Decidable P] (hp : P → p.Nests S st post) (hq : ¬ P → q.Nests S st post) :
    Nests S st post (if P then p else q) := by
  split
  · exact hp ‹_›
  · exact hq ‹_›

theorem site {S' : Site} (hp : p.Nests S' st post) (hS : ∀ c s, S c s → S' c s) :
    p.Nests S st post :=
  fun _ _ _ _ hc h hb => hp hc (hS _ _ h) hb

theorem anyplace (hp : p.Nests .anywhere st post) : p.Nests S st post :=
  hp.site fun _ _ _ => trivial

theorem within {change : Context → Context} (hfinish : ∀ c, (change c).finish = c.finish)
    (hp : p.Nests .anywhere st post) : (Parser.within change p).Nests S st post :=
  fun c _ _ _ hc _ h => hp (by rwa [hfinish c]) trivial h

theorem inClassBody (hp : p.Nests .anywhere st post) :
    (Parser.inClassBody p).Nests S st post := by
  intro c s b t hc _ h
  obtain ⟨u, hu, scope, -, rfl⟩ := inClassBody_eq_ok.1 h
  have hbody : State.Nests { s with scope := s.scope.enter } st u (post b) := hp hc trivial hu
  exact hbody

/-! Tokens. -/

theorem advance {f : Token → Parser β} {x : Token} (hx : x.kind.nest st = some st')
    (hf : ∀ y, (f y).Nests .anywhere st' post) :
    (Parser.advance >>= f).Nests (.before x) st post := by
  intro c s b t hc hS h
  obtain ⟨y, u, hu, hb⟩ := bind_eq_ok.1 h
  obtain ⟨-, rfl⟩ := advance_eq_ok.1 hu
  have hS : c.next s = x := hS
  exact (State.Nests.skip hc (by rwa [hS])).trans (hf y hc trivial hb)

theorem advance_flat : Parser.advance.Closes .flat st := by
  intro c s b t hc hS h
  obtain ⟨-, rfl⟩ := advance_eq_ok.1 h
  exact .skip hc (hS st)

theorem expectKind {k : Kind} (hk : k.nest st = some st') :
    (Parser.expectKind k).Nests S st fun _ => st' := by
  intro c s b t hc _ h
  obtain ⟨hnext, -, rfl⟩ := expectKind_eq_ok.1 h
  exact .skip hc (by rwa [hnext])

theorem expect {k : Punct} (hk : (Kind.punct k).nest st = some st') :
    (Parser.expect k).Nests S st fun _ => st' :=
  expectKind hk

theorem expectKeyword (k : Keyword) : (Parser.expectKeyword k).Closes S st :=
  expectKind rfl

theorem acceptKind {k : Kind} (hk : k.nest st = some st') (hp : p.Nests .anywhere st' post)
    (hq : q.Nests .anywhere st post) :
    (Parser.acceptKind k >>= fun b => if b then p else q).Nests S st post := by
  intro c s b t hc _ h
  obtain ⟨a, u, ha, hb⟩ := bind_eq_ok.1 h
  obtain ⟨hnext, rfl, rfl⟩ | ⟨-, rfl, rfl⟩ := acceptKind_eq_ok.1 ha
  · exact (State.Nests.skip hc (by rwa [hnext])).trans (hp hc trivial hb)
  · exact hq hc trivial hb

theorem accept {k : Punct} (hk : (Kind.punct k).nest st = some st')
    (hp : p.Nests .anywhere st' post) (hq : q.Nests .anywhere st post) :
    (Parser.accept k >>= fun b => if b then p else q).Nests S st post :=
  acceptKind hk hp hq

theorem acceptKeyword {k : Keyword} (hp : p.Nests .anywhere st post)
    (hq : q.Nests .anywhere st post) :
    (Parser.acceptKeyword k >>= fun b => if b then p else q).Nests S st post :=
  acceptKind rfl hp hq

/-- A token that is no bracket may be taken or not. -/
theorem optional {k : Kind} (hk : k.IsFlat) : (Parser.acceptKind k).Closes S st := by
  intro c s b t hc _ h
  obtain ⟨hnext, -, rfl⟩ | ⟨-, -, rfl⟩ := acceptKind_eq_ok.1 h
  · exact .skip hc (by rw [hnext, hk])
  · exact .of_eq rfl

theorem semicolon : Parser.semicolon.Closes S st :=
  accept rfl done (look (fun _ _ => ⟨_, rfl⟩) fun _ => ite (fun _ => done) fun _ =>
    unexpectedNext)

/-! Words. -/

theorem anyWord : Parser.anyWord.Closes S st := by
  intro c s b t hc _ h
  obtain ⟨word, hword, -, rfl⟩ := anyWord_eq_ok.1 h
  exact .skip hc (Kind.isFlat_of_word? hword st)

theorem ident : Parser.ident.Closes S st :=
  bind anyWord fun _ => step (.checkUnreserved _ _) fun _ => step .context fun _ =>
    ite (fun _ => reject _ _) fun _ => done

theorem propertyWord : Parser.propertyWord.Closes S st :=
  bind anyWord fun _ => step (.checkIfNever _) fun _ => done

theorem privateName : Parser.privateName.Closes S st := by
  refine peek fun x => ?_
  split
  · next word hx =>
    exact advance (by rw [hx]; rfl) fun _ => ite (fun _ => reject _ _) fun _ =>
      step (.checkIfNever _) fun _ => done
  · exact unexpected _

end Nests

/-! Repetitions. -/

/-- The brackets that are open behind a turn, if it stops and if it goes on. -/
def Turn.nest (stop more : List Punct) : Turn σ α → List Punct
  | .stop _ => stop
  | .more .. => more

theorem collectFrom_nests {turn : σ → Parser (Turn σ α)} {turns : Nat}
    (hturn : ∀ x, (turn x).Nests .anywhere st (Turn.nest st' st)) (x : σ) :
    (collectFrom turn turns x).Nests S st fun _ => st' := by
  induction turns generalizing S x with
  | zero => exact fun _ _ _ _ _ _ h => (fail_eq_ok.1 h).elim
  | succ turns ih =>
    refine .bind (hturn x).anyplace fun r => ?_
    cases r with
    | stop items => exact .done
    | more items next => exact .bind (ih next) fun _ => .done

theorem collect_nests {turn : Parser (Turn Unit α)} {turns : Nat}
    (hturn : turn.Nests .anywhere st (Turn.nest st' st)) :
    (collect turns turn).Nests S st fun _ => st' :=
  collectFrom_nests (fun _ => hturn) ()

theorem extend_nests {next : α → Parser (Option α)} {turns : Nat} (hnext : ∀ x, (next x).Balanced)
    (x : α) : (extend next turns x).Closes S st := by
  induction turns generalizing S x with
  | zero => exact fun _ _ _ _ _ _ h => (fail_eq_ok.1 h).elim
  | succ turns ih =>
    refine .bind (hnext x S st) fun r => ?_
    cases r with
    | none => exact .done
    | some y => exact ih y

theorem separated_nests {item : Parser α} {close : Punct} {turns : Nat}
    (hclose : (Kind.punct close).nest (close :: st) = some st) (hitem : item.Balanced) :
    (separated turns close item).Nests S (close :: st) fun _ => st := by
  refine .accept hclose .done (.bind (hitem _ _) fun first => .bind (collect_nests
    (.accept hclose (.pure rfl) ?_)) fun rest => .done)
  exact .bind (.expect rfl) fun _ => .accept hclose (.pure rfl)
    (.bind (hitem _ _) fun _ => .pure rfl)

end Parser

/-! Partners. -/

/-- The bracket that closes an opening one. -/
def Kind.closer? : Kind → Option Punct
  | .punct .lparen => some .rparen
  | .punct .lbracket => some .rbracket
  | .punct .lbrace => some .rbrace
  | _ => none

theorem Kind.isOpening_of_closer? {k : Kind} {p : Punct} (h : k.closer? = some p) :
    Grammar.isOpening k = true ∧ Grammar.isOpening (.punct p) = false ∧
      Grammar.isClosing (.punct p) = true := by
  unfold closer? at h
  split at h <;> cases h <;> decide

theorem eq_cons_of_closeBracket {p : Punct} (h : closeBracket p st = some st') :
    st = p :: st' := by
  cases st with
  | nil => cases h
  | cons q st =>
    obtain ⟨rfl, ⟨⟩⟩ := Option.ite_none_right_eq_some.1 h
    rfl

/-- A token opens a bracket, closes the innermost one or is no bracket. -/
theorem Kind.nest_cases {k : Kind} (h : k.nest st = some st') :
    (∃ p, k.closer? = some p ∧ st' = p :: st) ∨
      (∃ p, k = .punct p ∧ Grammar.isOpening k = false ∧ Grammar.isClosing k = true ∧
        st = p :: st') ∨
      Grammar.isOpening k = false ∧ Grammar.isClosing k = false ∧ st' = st := by
  unfold Kind.nest at h
  split at h
  · exact Or.inl ⟨_, rfl, (Option.some.inj h).symm⟩
  · exact Or.inl ⟨_, rfl, (Option.some.inj h).symm⟩
  · exact Or.inl ⟨_, rfl, (Option.some.inj h).symm⟩
  · exact Or.inr (Or.inl ⟨_, rfl, rfl, rfl, eq_cons_of_closeBracket h⟩)
  · exact Or.inr (Or.inl ⟨_, rfl, rfl, rfl, eq_cons_of_closeBracket h⟩)
  · exact Or.inr (Or.inl ⟨_, rfl, rfl, rfl, eq_cons_of_closeBracket h⟩)
  · cases h
    exact Or.inr (Or.inr ⟨by simp_all [Grammar.isOpening], by simp_all [Grammar.isClosing], rfl⟩)

/-- What the first of some tokens does to the open brackets, and what is left to the others. -/
theorem nest_cons_cases {x : Token} {ts : List Token} (h : nest st (x :: ts) = some st') :
    (∃ p, x.kind.closer? = some p ∧ nest (p :: st) ts = some st') ∨
      (∃ p st'', x.kind = .punct p ∧ Grammar.isOpening x.kind = false ∧
        Grammar.isClosing x.kind = true ∧ st = p :: st'' ∧ nest st'' ts = some st') ∨
      Grammar.isOpening x.kind = false ∧ Grammar.isClosing x.kind = false ∧
        nest st ts = some st' := by
  rw [nest, Option.bind_eq_some_iff] at h
  obtain ⟨mid, hx, hrest⟩ := h
  rcases Kind.nest_cases hx with ⟨p, hp, rfl⟩ | ⟨p, hk, ho, hc, hst⟩ | ⟨ho, hc, rfl⟩
  · exact Or.inl ⟨p, hp, hrest⟩
  · exact Or.inr (Or.inl ⟨p, mid, hk, ho, hc, hst, hrest⟩)
  · exact Or.inr (Or.inr ⟨ho, hc, hrest⟩)

/-- Behind tokens that are properly nested, the same bracket is looked for as before them. -/
theorem afterPartner_nest {taken : List Token} (h : nest st taken = some st') (rest : List Token) :
    Grammar.afterPartner (st.length + 1) (taken ++ rest) =
      Grammar.afterPartner (st'.length + 1) rest := by
  induction taken generalizing st with
  | nil =>
    cases h
    rfl
  | cons x taken ih =>
    rw [List.cons_append, Grammar.afterPartner]
    rcases nest_cons_cases h with ⟨p, hp, hrest⟩ | ⟨p, st'', -, ho, hc, rfl, hrest⟩ |
      ⟨ho, hc, hrest⟩
    · rw [if_pos (Kind.isOpening_of_closer? hp).1, ← ih hrest, List.length_cons]
    · rw [if_neg (by simp [ho]), if_pos hc, if_neg (by simp), ← ih hrest, List.length_cons]
      rfl
    · rw [if_neg (by simp [ho]), if_neg (by simp [hc]), ← ih hrest]

end JsClass
