import JsClass.Proofs.Nesting.Statements
import JsClass.Proofs.StatementComposition

/-!
The brackets of a program that was read are properly nested. And the look ahead from a parenthesis,
which counts brackets of all kinds together, is right: where it finds the arrow of a function, the
parameters end before that arrow, whatever values stand among them.
-/
namespace JsClass

variable {c : Context} {r s t : State} {st st' : List Punct} {ts inner rest : List Token}
  {x y : Token} {p : Punct}

/-! Bracket words. -/

/-- Tokens whose brackets are properly nested, each closed by one of its own kind. -/
inductive Nested : List Token → Prop
  | nil : Nested []
  | flat {x : Token} {ts : List Token} (opening : Grammar.isOpening x.kind = false)
    (closing : Grammar.isClosing x.kind = false) (behind : Nested ts) : Nested (x :: ts)
  | pair {x y : Token} {p : Punct} {inner rest : List Token} (opening : x.kind.closer? = some p)
    (closing : y.kind = .punct p) (inside : Nested inner) (behind : Nested rest) :
    Nested (x :: (inner ++ y :: rest))

namespace Kind

theorem nest_of_closer? {k : Kind} (h : k.closer? = some p) (st : List Punct) :
    k.nest st = some (p :: st) := by
  unfold closer? at h
  split at h <;> cases h <;> rfl

theorem nest_closer {k : Kind} (h : k.closer? = some p) (st : List Punct) :
    (Kind.punct p).nest (p :: st) = some st := by
  unfold closer? at h
  split at h <;> cases h <;> simp [nest, closeBracket]

theorem nest_of_flat {k : Kind} (ho : Grammar.isOpening k = false)
    (hc : Grammar.isClosing k = false) (st : List Punct) : k.nest st = some st := by
  fun_cases Kind.nest st k with
  | case7 => rfl
  | case1 | case2 | case3 => cases ho
  | _ => cases hc

end Kind

theorem Nested.nest_eq (h : Nested ts) (st : List Punct) : nest st ts = some st := by
  induction h generalizing st with
  | nil => rfl
  | flat ho hc _ ih =>
    rw [nest, Kind.nest_of_flat ho hc, Option.bind_some]
    exact ih st
  | pair ho hc _ _ hinside hbehind =>
    rw [nest, Kind.nest_of_closer? ho, Option.bind_some, nest_append, hinside, Option.bind_some,
      nest, hc, Kind.nest_closer ho, Option.bind_some]
    exact hbehind st

/-- A bracket that is open before some tokens and not behind them has its partner among them, and
what stands before the partner is properly nested. -/
theorem exists_partner (h : nest (p :: st) ts = some st') (hle : st'.length ≤ st.length) :
    ∃ inner y rest, ts = inner ++ y :: rest ∧ Nested inner ∧ y.kind = .punct p ∧
      nest st rest = some st' := by
  induction hn : ts.length using Nat.strongRecOn generalizing ts p st with
  | ind n ih =>
    cases ts with
    | nil =>
      cases h
      exact absurd hle (Nat.not_succ_le_self _)
    | cons x ts =>
      rw [List.length_cons] at hn
      rcases nest_cons_cases h with ⟨q, hq, hrest⟩ | ⟨q, st'', hk, -, -, hst, hrest⟩ |
        ⟨ho, hc, hrest⟩
      · -- first the partner of the bracket that opens here, then the one that is looked for
        have hle' : st'.length ≤ (p :: st).length := Nat.le_succ_of_le hle
        obtain ⟨inner, y, behind, rfl, hinner, hy, hbehind⟩ :=
          ih ts.length (by omega) hrest hle' rfl
        have hlength : behind.length < n := by
          simp only [List.length_append, List.length_cons] at hn
          omega
        obtain ⟨more, z, rest, rfl, hmore, hz, hlast⟩ := ih _ hlength hbehind hle rfl
        exact ⟨x :: (inner ++ y :: more), z, rest, by simp, .pair hq hy hinner hmore, hz, hlast⟩
      · cases hst
        exact ⟨[], x, ts, rfl, .nil, hk, hrest⟩
      · obtain ⟨inner, y, rest, rfl, hinner, hy, hlast⟩ := ih ts.length (by omega) hrest hle rfl
        exact ⟨x :: inner, y, rest, rfl, .flat ho hc hinner, hy, hlast⟩

theorem nested_iff_nest : Nested ts ↔ nest [] ts = some [] := by
  refine ⟨fun h => h.nest_eq [], fun h => ?_⟩
  induction hn : ts.length using Nat.strongRecOn generalizing ts with
  | ind n ih =>
    cases ts with
    | nil => exact .nil
    | cons x ts =>
      rw [List.length_cons] at hn
      rcases nest_cons_cases h with ⟨q, hq, hrest⟩ | ⟨q, st'', -, -, -, hst, -⟩ | ⟨ho, hc, hrest⟩
      · obtain ⟨inner, y, behind, rfl, hinner, hy, hbehind⟩ := exists_partner hrest (Nat.le_refl _)
        have hlength : behind.length < n := by
          simp only [List.length_append, List.length_cons] at hn
          omega
        exact .pair hq hy hinner (ih _ hlength hbehind rfl)
      · cases hst
      · exact .flat ho hc (ih ts.length (by omega) hrest rfl)

theorem Nested.append (h : Nested ts) (h' : Nested rest) : Nested (ts ++ rest) := by
  rw [nested_iff_nest, nest_append, h.nest_eq, Option.bind_some, h'.nest_eq]

/-! Looking ahead. -/

/-- Counting all brackets together finds the partner of a bracket whose inside is properly
nested. -/
theorem afterPartner_nested (hx : x.kind.closer? = some p) (hy : y.kind = .punct p)
    (h : Nested inner) (rest : List Token) :
    Grammar.afterPartner 0 (x :: (inner ++ y :: rest)) = rest := by
  obtain ⟨hopen, hnot, hclose⟩ := Kind.isOpening_of_closer? hx
  have hinner : Grammar.afterPartner 1 (inner ++ y :: rest) = Grammar.afterPartner 1 (y :: rest) :=
    afterPartner_nest (h.nest_eq []) (y :: rest)
  rw [Grammar.afterPartner, if_pos hopen, hinner, Grammar.afterPartner, hy,
    if_neg (by simp [hnot]), if_pos hclose, if_pos (Nat.le_refl 1)]

/-- Whether a token is an arrow on the line of the token before it. -/
def Token.isArrow (t : Token) : Bool := t.kind == .punct .fatArrow && !t.newlineBefore

theorem Token.isArrow_iff :
    x.isArrow = true ↔ x.kind = .punct .fatArrow ∧ x.newlineBefore = false := by
  simp [isArrow]

/-- The look ahead stays where it is. -/
theorem isArrowParams_eq (c : Context) (s : State) : Grammar.isArrowParams c s =
    .ok ((Grammar.afterPartner 0 s.pending).headD c.finish).isArrow s := rfl

/-- From one state to another a parenthesis is closed, behind tokens that are properly nested. -/
def State.Shuts (s t : State) : Prop :=
  ∃ inner y, s.pending = inner ++ y :: t.pending ∧ Nested inner ∧ y.kind = .punct .rparen

namespace State.Shuts

theorem behind (hrs : r.Nests [] s []) (hst : s.Shuts t) : r.Shuts t := by
  obtain ⟨taken, hr, htaken⟩ := hrs
  obtain ⟨inner, y, hs, hinner, hy⟩ := hst
  exact ⟨taken ++ inner, y, by rw [hr, hs, List.append_assoc],
    (nested_iff_nest.2 htaken).append hinner, hy⟩

theorem skip (hc : c.finish.kind = .eof) (h : (c.next s).kind = .punct .rparen) :
    s.Shuts s.skip :=
  ⟨[], c.next s, Context.pending_eq hc (by simp [h]), .nil, h⟩

end State.Shuts

namespace Grammar

open JsClass.Parser

variable {g : Grammar}

/-- A turn that goes on is properly nested, and one that stops closes a parenthesis. -/
def TurnShuts (s t : State) : Turn Unit Node → Prop
  | .stop _ => s.Shuts t
  | .more .. => s.Nests [] t []

theorem collect_shuts {turn : Parser (Turn Unit Node)} {turns : Nat} {ns : List Node}
    (hturn : ∀ {s t : State} {r : Turn Unit Node}, turn c s = .ok r t → TurnShuts s t r)
    (h : collect turns turn c s = .ok ns t) : s.Shuts t := by
  refine collectFrom_induction (P := fun _ s _ t => s.Shuts t) ?_ ?_ h
  · intro _ s items t hr
    exact hturn hr
  · intro _ s items _ u rest t hr ih
    exact .behind (hturn hr) ih

theorem closeRest_shuts (hc : c.finish.kind = .eof) {u : Unit} (h : closeRest c s = .ok u t) :
    s.Shuts t := by
  simp only [closeRest, bind_eq_ok, peek_eq_ok, ite_eq_ok, advance_eq_ok, pure_eq_ok, reject_eq_ok,
    and_false, or_false] at h
  obtain ⟨_, _, ⟨rfl, rfl⟩, hk, _, _, ⟨-, rfl⟩, -, rfl⟩ := h
  exact .skip hc (by simpa using hk)

theorem ident_nests (hc : c.finish.kind = .eof) {i : Ident} (h : ident c s = .ok i t) :
    s.Nests [] t [] :=
  Parser.Nests.ident (S := .anywhere) hc trivial h

/-- Parameters are shut by the partner of their parenthesis. -/
theorem params_shuts (hg : g.Nests) (hc : c.finish.kind = .eof) {ps : List Node}
    (h : g.params c s = .ok ps t) : (c.next s).kind = .punct .lparen ∧ s.skip.Shuts t := by
  obtain ⟨_, u, hopen, h⟩ := bind_eq_ok.1 h
  obtain ⟨hparen, -, rfl⟩ := expect_eq_ok.1 hopen
  refine ⟨hparen, collect_shuts ?_ h⟩
  intro s t r h
  obtain ⟨b, u, hb, h⟩ := bind_eq_ok.1 h
  obtain ⟨hclose, rfl, rfl⟩ | ⟨-, rfl, rfl⟩ := accept_eq_ok.1 hb
  · obtain ⟨rfl, rfl⟩ := pure_eq_ok.1 h
    exact State.Shuts.skip hc hclose
  · obtain ⟨_, _, hx, h⟩ := bind_eq_ok.1 h
    obtain ⟨-, rfl⟩ := peek_eq_ok.1 hx
    obtain ⟨b, u, hb, h⟩ := bind_eq_ok.1 h
    have hrest : s.Nests [] u [] :=
      Parser.Nests.optional (fun _ => rfl) (S := .anywhere) hc trivial hb
    rcases ite_eq_ok.1 h with ⟨-, h⟩ | ⟨-, h⟩
    · -- a rest parameter, behind which nothing but the parenthesis may stand
      obtain ⟨_, v, hname, h⟩ := bind_eq_ok.1 h
      obtain ⟨_, w, hclose, h⟩ := bind_eq_ok.1 h
      obtain ⟨rfl, rfl⟩ := pure_eq_ok.1 h
      exact State.Shuts.behind (hrest.trans (ident_nests hc hname)) (closeRest_shuts hc hclose)
    · obtain ⟨_, v, hname, h⟩ := bind_eq_ok.1 h
      obtain ⟨_, w, hvalue, h⟩ := bind_eq_ok.1 h
      obtain ⟨_, _, hcheck, h⟩ := bind_eq_ok.1 h
      obtain ⟨-, rfl⟩ := check_eq_ok.1 hcheck
      have hparam : s.Nests [] w [] := (hrest.trans (ident_nests hc hname)).trans
        (initializer?_nests hg (S := .anywhere) hc trivial hvalue)
      rcases ite_eq_ok.1 h with ⟨-, h⟩ | ⟨-, h⟩
      · obtain ⟨rfl, rfl⟩ := pure_eq_ok.1 h
        exact hparam
      · obtain ⟨_, v, hcomma, h⟩ := bind_eq_ok.1 h
        obtain ⟨rfl, rfl⟩ := pure_eq_ok.1 h
        have htaken : w.Nests [] v [] :=
          Parser.Nests.expect (k := .comma) rfl (S := .anywhere) hc trivial hcomma
        exact hparam.trans htaken

theorem parenthesized_shuts (hg : g.Nests) (hc : c.finish.kind = .eof) {n : Node}
    (h : g.parenthesized c s = .ok n t) : (c.next s).kind = .punct .lparen ∧ s.skip.Shuts t := by
  simp only [parenthesized, bind_eq_ok, expect_eq_ok, pure_eq_ok] at h
  obtain ⟨_, _, ⟨hopen, -, rfl⟩, e, u, he, _, _, ⟨hclose, -, rfl⟩, -, rfl⟩ := h
  exact ⟨hopen, .behind (expression_nests hg (S := .anywhere) hc trivial he) (.skip hc hclose)⟩

/-- Behind the parameters stands what the look ahead has seen. -/
theorem afterPartner_params (hg : g.Nests) (hc : c.finish.kind = .eof) {ps : List Node}
    (h : g.params c s = .ok ps t) : afterPartner 0 s.pending = t.pending := by
  obtain ⟨hparen, inner, y, hinner, hnested, hy⟩ := params_shuts hg hc h
  have hopen : (c.next s).kind.closer? = some .rparen := by rw [hparen]; rfl
  rw [Context.pending_eq hc (by simp [hparen]), hinner]
  exact afterPartner_nested hopen hy hnested _

/-! All levels. -/

theorem Nests.withTurns (hg : g.Nests) (turns : Nat) : { g with turns }.Nests :=
  ⟨hg.statement, hg.assignment, hg.unary, hg.subscripted, hg.atom⟩

theorem level_nests (n : Nat) : (level n).Nests := by
  induction n with
  | zero => exact exhausted_nests
  | succ n ih => exact ih.next

end Grammar

/-- All brackets of a program are closed at its end. -/
theorem TokenStream.nested {ts : TokenStream} (hts : ts.IsClosed) {d : Dialect} {options : Options}
    {body : List Node} (h : ts.statements d options = .ok body t) : Nested ts.toList := by
  obtain ⟨-, hpending, -⟩ := readsAll hts h
  rw [statements, Grammar.program] at h
  have hnests : State.Nests ⟨ts.tokens, [], .empty⟩ [] t [] :=
    Grammar.statementsUntil_nests (Grammar.level_nests _) (fun _ => false) (S := .anywhere)
      hts.finish trivial h
  obtain ⟨taken, htaken, hnest⟩ := hnests
  have htokens : ts.tokens = taken ++ t.pending := htaken
  rw [hpending, List.append_nil] at htokens
  rw [nested_iff_nest, toList, nest_append, htokens, hnest, Option.bind_some, nest, hts.finish]
  rfl

/-- If a text is read, its brackets are properly nested. Wherever the look ahead from a parenthesis
sees an arrow and parameters are read from there, what comes next is that arrow, on the same line,
and so it is taken. And from a parenthesis whose inside is properly nested, the look ahead sees the
token behind its partner, and the place does not change. -/
theorem brackets_nest_and_arrows_are_foreseen :
    (∀ options source parsed ts, tokenize .withPrivate source = .ok ts →
      parse options source = .ok parsed → Nested ts.toList) ∧
    (∀ n turns (c : Context) (s t : State) params, c.finish.kind = .eof →
      Grammar.isArrowParams c s = .ok true s →
      { Grammar.level n with turns }.params c s = .ok params t →
      (c.next t).kind = .punct .fatArrow ∧ (c.next t).newlineBefore = false ∧
        Parser.expect .fatArrow c t = .ok (c.next t) t.skip) ∧
    (∀ (c : Context) (s : State) opening inner closing rest, opening.kind = .punct .lparen →
      closing.kind = .punct .rparen → Nested inner →
      s.pending = opening :: (inner ++ closing :: rest) →
      ∃ answer, Grammar.isArrowParams c s = .ok answer s ∧
        (answer = true ↔ (rest.headD c.finish).kind = .punct .fatArrow ∧
          (rest.headD c.finish).newlineBefore = false)) := by
  refine ⟨?_, ?_, ?_⟩
  · intro options source parsed ts hts h
    obtain ⟨ts', t, hts', hbody⟩ := parse_eq_ok h
    obtain rfl : ts = ts' := Except.ok.inj (hts.symm.trans hts')
    have hcovers := TokenStream.covers_of_tokenize hts
    exact TokenStream.nested ⟨hcovers.finish.1, hcovers.ne_eof⟩ hbody
  · intro n turns c s t params hc harrow h
    have hpartner := Grammar.afterPartner_params ((Grammar.level_nests n).withTurns turns) hc h
    rw [isArrowParams_eq, hpartner] at harrow
    have hnext : (c.next t).isArrow = true := (Reply.ok.inj harrow).1
    obtain ⟨hkind, hnewline⟩ := Token.isArrow_iff.1 hnext
    exact ⟨hkind, hnewline, Parser.expect_eq_ok.2 ⟨hkind, rfl, rfl⟩⟩
  · intro c s opening inner closing rest hopen hclose hinner hs
    have hcloser : opening.kind.closer? = some .rparen := by rw [hopen]; rfl
    refine ⟨_, isArrowParams_eq c s, ?_⟩
    rw [hs, afterPartner_nested hcloser hclose hinner]
    exact Token.isArrow_iff

/-- An arrow function whose parameters have brackets of all kinds among their values, with a
parenthesis in its body that opens no parameters. -/
def arrowText : String := "(a, b = [c(1), \x7b\x7d], ...d) => \x7b return (b)[a] \x7d"

/-- An array in parentheses, and an arrow on the line below. -/
def brokenArrow : List Token :=
  [⟨.punct .lparen, .start, false⟩, ⟨.punct .lbracket, .start, false⟩,
    ⟨.punct .rbracket, .start, false⟩, ⟨.punct .rparen, .start, false⟩,
    ⟨.punct .fatArrow, .start, true⟩]

theorem arrowText_foreseen :
    (∃ ts parsed params t, tokenize .withPrivate arrowText = .ok ts ∧
      parse .default arrowText = .ok parsed ∧ Nested ts.toList ∧
      { Grammar.level 9 with turns := 9 }.params (.initial .withPrivate .default ts.finish)
        ⟨ts.tokens, [], .empty⟩ = .ok params t ∧
      ((Context.initial .withPrivate .default ts.finish).next t).kind = .punct .fatArrow) ∧
    ∀ c : Context,
      Grammar.isArrowParams c ⟨brokenArrow, [], .empty⟩ = .ok false ⟨brokenArrow, [], .empty⟩ := by
  obtain ⟨hnested, hforeseen, hlook⟩ := brackets_nest_and_arrows_are_foreseen
  refine ⟨?_, fun c => ?_⟩
  · have hread : (parse .default arrowText).toOption.isSome := by decide +kernel
    have hrun : (tokenize .withPrivate arrowText).toOption.map (fun ts =>
        (ts.finish.kind == .eof) &&
        ((Grammar.afterPartner 0 ts.tokens).headD ts.finish).isArrow &&
        ({ Grammar.level 9 with turns := 9 }.params (.initial .withPrivate .default ts.finish)
          ⟨ts.tokens, [], .empty⟩).value?.isSome) = some true := by
      decide +kernel
    cases hp : parse .default arrowText with
    | error e => simp [hp, Except.toOption] at hread
    | ok parsed =>
      cases hts : tokenize .withPrivate arrowText with
      | error e => simp [hts, Except.toOption] at hrun
      | ok ts =>
        cases hparams : { Grammar.level 9 with turns := 9 }.params
            (.initial .withPrivate .default ts.finish) ⟨ts.tokens, [], .empty⟩ with
        | error e t => simp [hts, hparams, Except.toOption, Reply.value?] at hrun
        | ok params t =>
          simp only [hts, hparams, Except.toOption, Reply.value?, Option.map_some,
            Option.isSome_some, Option.some.injEq, Bool.and_true, Bool.and_eq_true,
            beq_iff_eq] at hrun
          have harrow : Grammar.isArrowParams (.initial .withPrivate .default ts.finish)
              ⟨ts.tokens, [], .empty⟩ = .ok true ⟨ts.tokens, [], .empty⟩ := by
            rw [isArrowParams_eq]
            exact congrArg (Reply.ok · _) hrun.2
          exact ⟨ts, parsed, params, t, rfl, rfl, hnested .default arrowText parsed ts hts hp,
            hparams, (hforeseen 9 9 _ _ t params hrun.1 harrow hparams).1⟩
  · have hinner : Nested (⟨.punct .lbracket, .start, false⟩ ::
        ([] ++ ⟨.punct .rbracket, .start, false⟩ :: [])) :=
      .pair rfl rfl .nil .nil
    obtain ⟨answer, hanswer, hiff⟩ := hlook c ⟨brokenArrow, [], .empty⟩ _ _ _
      [⟨.punct .fatArrow, .start, true⟩] rfl rfl hinner rfl
    have hfalse : answer = false := by simpa using hiff
    rw [hanswer, hfalse]

end JsClass
