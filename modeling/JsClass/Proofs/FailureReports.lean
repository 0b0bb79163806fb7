import JsClass.Analysis
import JsClass.Proofs.Safety.Statements
import JsClass.Proofs.Token.Faults
import JsClass.Proofs.TokenCover

/-!
Which failures can be reported. Whatever the text, reading it ends: with a program, with a problem
that has a position, or at a number or an escape that denotes nothing. Only the last leaves an
editor without an analysis.
-/
namespace JsClass

variable {d : Dialect} {options : Options} {uri source : String} {s : TokenStream}
  {failure : Failure}

/-- The failures that have a message and a position. -/
def Failure.isReportable : Failure → Bool
  | .lexical .. | .rejected _ => true
  | .unreadable | .overflow | .noClass | .exhausted => false

/-- A text in which a number or an escape may denote nothing. -/
def IsDoubtful (source : String) : Prop :=
  HasNegativeEscape source.toList ∨
    ∃ s, tokenize .withPrivate source = .ok s ∧ ∃ x ∈ s.tokens, x.kind.hasBadDigits

/-- The failures that only a doubtful text may have. -/
def Failure.IsDoubt (source : String) (failure : Failure) : Prop :=
  IsDoubtful source ∧ (failure = .unreadable ∨ failure = .overflow)

theorem tokenize_failure (h : tokenize d source = .error failure) :
    (∃ cause pos, failure = .lexical cause pos) ∨ failure.IsDoubt source := by
  unfold tokenize at h
  cases hs : TokenStream.ofString d source with
  | ok s => simp [hs, Except.mapError] at h
  | error e =>
    simp only [hs, Except.mapError, Except.error.injEq] at h
    subst h
    have hfault := TokenStream.scan_fault hs
    obtain ⟨fault, pos⟩ := e
    cases fault with
    | cause c => exact Or.inl ⟨c, pos, rfl⟩
    | negativeCodePoint => exact Or.inr ⟨Or.inl hfault, Or.inl rfl⟩
    | codePointUnderflow => exact Or.inr ⟨Or.inl hfault, Or.inr rfl⟩

theorem statements_fault {fault : Fault} {t : State} (hs : tokenize .withPrivate source = .ok s)
    (h : s.statements d options = .error fault t) :
    (∃ d, fault = .rejected d) ∨ (Failure.ofFault fault).IsDoubt source := by
  have hfinish := (TokenStream.covers_of_tokenize hs).finish.1
  have hfault := TokenStream.statements_safe hfinish d options h
  cases fault with
  | rejected d => exact Or.inl ⟨d, rfl⟩
  | unreadableNumber =>
    obtain ⟨x, hx, hlegible⟩ := hfault
    refine Or.inr ⟨Or.inr ⟨s, hs, x, hx, ?_⟩, Or.inl rfl⟩
    -- a number with good digits would have had a value
    by_contra hgood
    obtain ⟨-, -, hnumber⟩ := TokenStream.spelled_of_tokenize
      (P := fun kind _ => ∀ raw, kind = .number raw → kind.hasBadDigits = false →
        (Numeral.ofText? raw).isSome)
      (fun hnext _ => Scanned.number_of_next hnext) hs x hx
    exact hlegible fun raw hraw => hnumber raw hraw (by simpa using hgood)
  | noClass | exhausted => exact hfault.elim

theorem parse_failure (h : parse options source = .error failure) :
    failure.isReportable ∨ failure.IsDoubt source := by
  cases hs : tokenize .withPrivate source with
  | error e =>
    simp only [parse, parseWith, hs, bind, Except.bind, Except.error.injEq] at h
    subst h
    rcases tokenize_failure hs with ⟨cause, pos, rfl⟩ | hdoubt
    · exact Or.inl rfl
    · exact Or.inr hdoubt
  | ok s =>
    simp only [parse, parseWith, hs, bind, Except.bind, TokenStream.parse] at h
    split at h
    · cases h
    · next hstatements =>
      cases h
      rcases statements_fault hs hstatements with ⟨d, rfl⟩ | hdoubt
      · exact Or.inl rfl
      · exact Or.inr hdoubt

/-- Every failure that can be reported is part of an analysis. -/
theorem ofSource_failure (h : Analysis.ofSource options uri source = .error failure) :
    failure.IsDoubt source := by
  unfold Analysis.ofSource at h
  cases hs : tokenize .withPrivate source with
  | error e =>
    rcases tokenize_failure hs with ⟨cause, pos, rfl⟩ | hdoubt
    · simp [hs] at h
    · obtain rfl : e = failure := by
        rcases hdoubt.2 with rfl | rfl <;> simpa [hs] using h
      exact hdoubt
  | ok s =>
    simp only [hs, Analysis.ofStream] at h
    split at h
    · cases h
    · cases h
    · next hrejected hstatements =>
      cases h
      rcases statements_fault hs hstatements with ⟨d, rfl⟩ | hdoubt
      · exact (hrejected d rfl).elim
      · exact hdoubt

/-- A text is read, or it fails for a reason to report, unless there is a number or an escape in it
that may denote nothing; then the failure may be one of two that are not reported. And so an
editor gets an analysis of every text but these. -/
theorem failures_are_reported (options : Options) (uri source : String) :
    ((∃ parsed, parse options source = .ok parsed) ∨
      (∃ failure, parse options source = .error failure ∧ failure.isReportable) ∨
      IsDoubtful source ∧ (parse options source = .error .unreadable ∨
        parse options source = .error .overflow)) ∧
    ((∃ analysis, Analysis.ofSource options uri source = .ok analysis) ∨
      IsDoubtful source ∧ (Analysis.ofSource options uri source = .error .unreadable ∨
        Analysis.ofSource options uri source = .error .overflow)) := by
  constructor
  · cases hp : parse options source with
    | ok parsed => exact Or.inl ⟨parsed, rfl⟩
    | error failure =>
      rcases parse_failure hp with hreport | ⟨hdoubt, hfailure⟩
      · exact Or.inr (Or.inl ⟨failure, rfl, hreport⟩)
      · exact Or.inr (Or.inr ⟨hdoubt, by simpa using hfailure⟩)
  · cases ha : Analysis.ofSource options uri source with
    | ok analysis => exact Or.inl ⟨analysis, rfl⟩
    | error failure =>
      obtain ⟨hdoubt, hfailure⟩ := ofSource_failure ha
      exact Or.inr ⟨hdoubt, by simpa using hfailure⟩

/-- An ordinary text, with a problem to report. -/
def openUseText : String := "class A { #x = 1.5e3; m() { return this.#y + 0x1F + 42 } }"

theorem openUseText_reported : ¬ IsDoubtful openUseText ∧
    (∃ failure, parse .default openUseText = .error failure ∧ failure.isReportable) ∧
    ∃ analysis, Analysis.ofSource .default "a.js" openUseText = .ok analysis := by
  have hread : ((tokenize .withPrivate openUseText).toOption.all fun s =>
      s.tokens.all fun x => !x.kind.hasBadDigits) = true := by
    decide +kernel
  have hrefused : (parse .default openUseText).toOption.isNone := by decide +kernel
  have hclear : ¬ IsDoubtful openUseText := by
    rintro (⟨body, n, hbody, -⟩ | ⟨s, hs, x, hx, hbad⟩)
    · have hslash : '\\' ∉ openUseText.toList := by decide +kernel
      exact hslash (hbody.subset List.mem_cons_self)
    · simp only [hs, Except.toOption, Option.all_some, List.all_eq_true] at hread
      simpa [hbad] using hread x hx
  obtain ⟨hparse, hanalysis⟩ := failures_are_reported .default "a.js" openUseText
  refine ⟨hclear, ?_, hanalysis.resolve_right fun h => hclear h.1⟩
  rcases hparse with ⟨parsed, hp⟩ | hfailure | ⟨hdoubt, -⟩
  · simp [hp, Except.toOption] at hrefused
  · exact hfailure
  · exact absurd hdoubt hclear

/-- A digit without a decimal value is read as a number, which has no value then; and an escape may
be given a number below zero. -/
theorem superscript_unreported :
    parse .default "²" = .error .unreadable ∧
    Analysis.ofSource .default "a.js" "²" = .error .unreadable ∧
    parse .default "'\\u\x7b-1\x7d'" = .error .unreadable := by
  exact ⟨rfl, rfl, rfl⟩

end JsClass
