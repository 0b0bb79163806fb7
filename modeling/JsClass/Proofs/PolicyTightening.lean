import JsClass.Proofs.EditionFilter
import JsClass.Proofs.LayoutIndependence
import JsClass.Proofs.Likeness.Leniency
import JsClass.Proofs.Termination

/-!
Stricter settings never change a tree. What a text is read as does not depend on the words that are
reserved or on whether it is a module: stricter settings report more problems, and the strictest of
them refuse more texts.
-/
namespace JsClass

variable {o o' : Options} {source : String} {parsed : Parsed}

theorem Leniency.contexts_initial {same : Prop} (d : Dialect) (finish : Token) (h : o.Laxer o')
    (hsame : same → o.RefuseSame o') :
    Contexts same (.initial d o finish) (.initial d o' finish) := by
  refine ⟨?_, h.policy, ?_, fun hs => ?_⟩
  · simp [Context.initial, h.edition]
  · simpa [Context.initial] using h.sourceType
  · obtain ⟨htype, hnever⟩ := hsame hs
    exact ⟨by simp [Context.initial, htype], hnever⟩

/-- The lax run over all statements beside the strict one. -/
theorem Leniency.statements (same : Prop) (ts : TokenStream) (d : Dialect) (h : o.Laxer o')
    (hsame : same → o.RefuseSame o') :
    Replies same (List.Forall₂ (Node.Alike .equal)) (ts.statements d o) (ts.statements d o') := by
  have hprogram : Runs same _ _ _ :=
    Likeness.program ((Likeness.leniency same).level (ts.tokens.length + 1))
  exact hprogram (contexts_initial d ts.finish h hsame) ⟨rfl, .slnil, rfl⟩

theorem eq_of_alike {ns ns' : List Node} (h : List.Forall₂ (Node.Alike .equal) ns ns') :
    ns = ns' := by
  have heq := h.imp fun _ _ => Node.Alike.eq
  rwa [List.forall₂_eq_eq_eq] at heq

/-- What stricter options read, laxer ones read as the same tree. -/
theorem parse_of_stricter (h : o.Laxer o') (hp : parse o' source = .ok parsed) :
    ∃ laxer, parse o source = .ok laxer ∧ laxer.program.body = parsed.program.body ∧
      laxer.reported.Sublist parsed.reported := by
  obtain ⟨s, body, t, hs, hbody, rfl⟩ := parse_iff.1 hp
  have hrun := Leniency.statements False s .withPrivate h False.elim
  rw [hbody] at hrun
  generalize hlax : s.statements .withPrivate o = r at hrun
  cases hrun with
  | ok halike hstates =>
    exact ⟨_, parse_iff.2 ⟨s, _, _, hs, hlax, rfl⟩, eq_of_alike halike, hstates.reported⟩

/-- Options that refuse the same texts read all texts alike, and refuse them with the same words at
the same place. -/
theorem parse_program_eq (h : o.Laxer o') (hsame : o.RefuseSame o') :
    (parse o source).map Parsed.program = (parse o' source).map Parsed.program := by
  cases hs : tokenize .withPrivate source with
  | error e => simp [parse, parseWith, hs, bind, Except.bind]
  | ok s =>
    have hrun := Leniency.statements True s .withPrivate h fun _ => hsame
    rw [parse_of_tokenize hs, parse_of_tokenize hs, TokenStream.parse, TokenStream.parse]
    generalize s.statements .withPrivate o = r at hrun
    generalize s.statements .withPrivate o' = r' at hrun
    cases hrun with
    | ok halike hstates => simp [Except.map, eq_of_alike halike, hsame.1]
    | error hfault =>
      obtain ⟨t, rfl⟩ := hfault trivial
      rfl

theorem Options.laxer_never (options : Options) (policy : ReservedPolicy) :
    Laxer { options with reserved := policy } { options with reserved := .never } := by
  refine ⟨rfl, ?_, id⟩
  cases policy <;> simp [ReservedPolicy.rank]

theorem Options.allowed_laxer (options : Options) (policy : ReservedPolicy) :
    Laxer { options with reserved := .allowed } { options with reserved := policy } :=
  ⟨rfl, Nat.zero_le _, id⟩

theorem Options.script_laxer (options : Options) :
    Laxer { options with sourceType := .script } { options with sourceType := .module } :=
  ⟨rfl, Nat.le_refl _, nofun⟩

/-- A text that is read under the strictest policy is read under every policy, to the same program
and with some of the same problems. The other policies read exactly the same texts, to the same
programs, and refuse the others with the same failure. A text that is read as a module is read as a
script, to the same statements and with some of the same problems. -/
theorem stricter_settings_report_more (options : Options) (source : String) :
    (∀ parsed, parse { options with reserved := .never } source = .ok parsed →
      ∀ policy, ∃ laxer, parse { options with reserved := policy } source = .ok laxer ∧
        laxer.program = parsed.program ∧ laxer.reported.Sublist parsed.reported) ∧
    (∀ policy, policy ≠ .never →
      (parse { options with reserved := .allowed } source).map Parsed.program =
        (parse { options with reserved := policy } source).map Parsed.program ∧
      ∀ parsed, parse { options with reserved := policy } source = .ok parsed →
        ∃ laxer, parse { options with reserved := .allowed } source = .ok laxer ∧
          laxer.reported.Sublist parsed.reported) ∧
    (∀ parsed, parse { options with sourceType := .module } source = .ok parsed →
      ∃ laxer, parse { options with sourceType := .script } source = .ok laxer ∧
        laxer.program.body = parsed.program.body ∧ laxer.reported.Sublist parsed.reported) := by
  refine ⟨fun parsed hp policy => ?_, fun policy hne => ⟨?_, fun parsed hp => ?_⟩,
    fun parsed hp => parse_of_stricter options.script_laxer hp⟩
  · obtain ⟨laxer, hlax, hbody, hreported⟩ := parse_of_stricter (options.laxer_never policy) hp
    refine ⟨laxer, hlax, ?_, hreported⟩
    obtain ⟨s, body, t, -, -, rfl⟩ := parse_iff.1 hp
    obtain ⟨s', body', t', -, -, rfl⟩ := parse_iff.1 hlax
    exact congrArg (Program.mk · options.sourceType) hbody
  · have hnever : ReservedPolicy.allowed = .never ↔ policy = .never := by simp [hne]
    exact parse_program_eq (options.allowed_laxer policy) ⟨rfl, hnever⟩
  · obtain ⟨laxer, hlax, -, hreported⟩ := parse_of_stricter (options.allowed_laxer policy) hp
    exact ⟨laxer, hlax, hreported⟩

/-- Words that only some settings reserve, as names of variables, of private members and of
properties. -/
def reservedText : String :=
  "var enum = static; class A \x7b #enum = 1; package() \x7b return this.#enum \x7d \x7d"

def Options.strictest : Options := ⟨.latest, .never, .module⟩

theorem reservedText_read_laxly : ∃ strict lax,
    parse .strictest reservedText = .ok strict ∧ parse .default reservedText = .ok lax ∧
      lax.program.body = strict.program.body ∧ lax.reported.Sublist strict.reported ∧
      strict.reported.length = 5 ∧ lax.reported.length = 0 := by
  have hstrict : (parse .strictest reservedText).toOption.map (·.reported.length) = some 5 := by
    decide +kernel
  have hlax : (parse .default reservedText).toOption.map (·.reported.length) = some 0 := by
    decide +kernel
  cases hp : parse .strictest reservedText with
  | error e => simp [hp, Except.toOption] at hstrict
  | ok strict =>
    obtain ⟨allowed, hallowed, hprogram, hfewer⟩ :=
      (stricter_settings_report_more .strictest reservedText).1 strict hp .allowed
    obtain ⟨lax, hscript, hbody, hfewest⟩ :=
      (stricter_settings_report_more { Options.strictest with reserved := .allowed }
        reservedText).2.2 allowed hallowed
    refine ⟨strict, lax, rfl, hscript, ?_, hfewest.trans hfewer, ?_, ?_⟩
    · rw [hbody, hprogram]
    · simpa [hp, Except.toOption] using hstrict
    · have hdefault : parse .default reservedText = .ok lax := hscript
      simpa [hdefault, Except.toOption] using hlax

end JsClass
