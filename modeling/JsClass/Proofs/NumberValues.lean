import JsClass.Proofs.NumberEnds
import JsClass.Proofs.Numeral.Denotation

/-!
The value of a number that was scanned. The scanner and the reader of values tell the forms of a
number apart in ways of their own: by the scanner's longest match, and by the marks that the text
has in it. They agree on every text that can be scanned.
-/
namespace JsClass

variable {c : Char} {cs text rest digits alphabet marks : List Char} {radix : Nat} {mark : Char}

namespace Numeral

open NumberLiteral

/-! The forms of a text, by the marks it has in it. -/

/-- A text begins with a zero and the mark of a radix. -/
def IsMarkedBy (radix : Nat) (text : List Char) : Prop :=
  ∃ marks alphabet, (radix, marks, alphabet) ∈ radixForms ∧ ∃ mark ∈ marks, ['0', mark] <+: text

/-- A text has a point or the mark of an exponent. -/
def IsPointed (text : List Char) : Prop := '.' ∈ text ∨ 'e' ∈ text ∨ 'E' ∈ text

/-- A text has a digit that is no decimal digit. -/
def HasBadDigit (text : List Char) : Prop :=
  ∃ c ∈ text, Text.isDigit c ∧ Text.decimalValue? c = none

theorem markedRadix?_eq_some : markedRadix? text = some radix ↔ IsMarkedBy radix text := by
  constructor
  · intro h
    unfold markedRadix? at h
    split at h
    · next mark rest =>
      obtain ⟨marks, alphabet, form, hmark⟩ := radixOfMark?_eq_some.1 h
      exact ⟨marks, alphabet, form, mark, hmark, rest, rfl⟩
    · cases h
  · rintro ⟨marks, alphabet, form, mark, hmark, rest, rfl⟩
    exact radixOfMark?_eq_some.2 ⟨marks, alphabet, form, hmark⟩

theorem any_mark_iff :
    (text.any fun c => c == '.' || c == 'e' || c == 'E') = true ↔ IsPointed text := by
  simp only [List.any_eq_true, Bool.or_eq_true, beq_iff_eq, IsPointed]
  grind

/-- The character `c` stands for `d` in a radix, in lower or upper case. -/
def IsRadixDigitOf (radix : Nat) (c : Char) (d : Nat) : Prop :=
  d < radix ∧ c.toLower = Nat.digitChar d

theorem isRadixDigitOf_of_mem (form : (radix, marks, alphabet) ∈ radixForms) (hc : c ∈ alphabet) :
    ∃ d, digitValue? radix c = some d ∧ IsRadixDigitOf radix c d := by
  have hall : radixForms.all fun f => f.2.2.all fun c =>
      decide (∃ d < f.1, digitValue? f.1 c = some d ∧ c.toLower = Nat.digitChar d) := by decide
  simp only [List.all_eq_true, decide_eq_true_eq] at hall
  obtain ⟨d, hlt, hd, hchar⟩ := hall _ form c hc
  exact ⟨d, hd, hlt, hchar⟩

theorem digitValue?_isSome_of_mem (form : (radix, marks, alphabet) ∈ radixForms)
    (hc : c ∈ alphabet) : (digitValue? radix c).isSome :=
  let ⟨d, hd, _⟩ := isRadixDigitOf_of_mem form hc
  Option.isSome_iff_exists.2 ⟨d, hd⟩

theorem digitsValue?_radix (form : (radix, marks, alphabet) ∈ radixForms) (hne : digits ≠ [])
    (hdigits : ∀ c ∈ digits, c ∈ alphabet) :
    ∃ n, digitsValue? radix digits = some n ∧
      Denotes (IsRadixDigitOf radix) radix digits n := by
  have hsome : ∀ c ∈ digits, (digitValue? radix c).isSome := fun c hc =>
    digitValue?_isSome_of_mem form (hdigits c hc)
  have hunderscore : '_' ∉ digits := fun hmem => by
    simpa [digitValue?_underscore] using hsome _ hmem
  obtain ⟨n, hn⟩ := Option.isSome_iff_exists.1 (digitsValue?_isSome hne hsome)
  refine ⟨n, hn, ((digitsValue?_eq_some hunderscore).1 hn).imp fun c hc d hd => ?_⟩
  obtain ⟨d', hd', his⟩ := isRadixDigitOf_of_mem form (hdigits c hc)
  cases hd.symm.trans hd'
  exact his

/-! The values. -/

/-- The value of the text of a number. -/
structure HasValue (text : List Char) (value : Option Numeral) : Prop where
  /-- Digits behind the mark of a radix always have a value. -/
  marked : ∀ radix, IsMarkedBy radix text →
    ∃ n, Denotes (IsRadixDigitOf radix) radix (text.drop 2) n ∧ value = some (.integer n)
  /-- Digits alone are an integer in base ten, if they are decimal and not too many. -/
  whole : (∀ radix, ¬ IsMarkedBy radix text) → ¬ IsPointed text →
    (value = none ↔ HasBadDigit text ∨ 4300 < text.length) ∧ ∀ v, value = some v →
      ∃ n, Denotes (fun c d => Text.decimalValue? c = some d) 10 text n ∧ v = .integer n
  /-- With a point or an exponent the number is a decimal, however many digits it has. -/
  pointed : (∀ radix, ¬ IsMarkedBy radix text) → IsPointed text →
    value = (float? text).map .float ∧ (value = none ↔ HasBadDigit text)

theorem hasValue_of_isRadixLiteral (h : IsRadixLiteral radix alphabet text digits) :
    HasValue text (ofText? (.ofList text)) := by
  obtain @⟨_, mark, _, form, hmark, hne, hdigits⟩ := h
  have hradix := radixOfMark?_eq_some.2 ⟨_, _, form, hmark⟩
  have hmarked : IsMarkedBy radix ('0' :: mark :: digits) := ⟨_, _, form, _, hmark, digits, rfl⟩
  have hsome : ∀ c ∈ digits, (digitValue? radix c).isSome := fun c hc =>
    digitValue?_isSome_of_mem form (hdigits c hc)
  obtain ⟨n, hn, hdenotes⟩ := digitsValue?_radix form hne hdigits
  refine ⟨fun radix' hmarked' => ?_, fun hnot => absurd hmarked (hnot radix),
    fun hnot => absurd hmarked (hnot radix)⟩
  cases (markedRadix?_eq_some.2 hmarked).symm.trans (markedRadix?_eq_some.2 hmarked')
  refine ⟨n, hdenotes, ?_⟩
  simp [ofText?, markedRadix?_eq_some.2 hmarked, integer?_marked hradix hsome, hn]

/-- Digits fail to have a value if one of them is bad, or if there are too many. -/
theorem integer?_eq_none (hne : text ≠ []) (hall : ∀ c ∈ text, Text.isDigit c) :
    integer? 10 text = none ↔ HasBadDigit text ∨ 4300 < text.length := by
  rw [integer?_digits hall, maxDecimalDigits]
  constructor
  · intro h
    by_contra hgood
    obtain ⟨hgood, hlength⟩ := not_or.1 hgood
    have hdecimal : ∀ c ∈ text, (digitValue? 10 c).isSome := fun c hc =>
      digitValue?_decimal (Option.isSome_iff_ne_none.2 fun hnone => hgood ⟨c, hc, hall c hc, hnone⟩)
    simp only [if_pos (Nat.le_of_not_lt hlength), Option.map_eq_none_iff] at h
    simpa [h] using digitsValue?_isSome hne hdecimal
  · rintro (⟨c, hc, -, hnone⟩ | hlength)
    · split
      · rw [Option.map_eq_none_iff, Option.eq_none_iff_forall_ne_some]
        intro n hn
        obtain ⟨d, hd⟩ := ((digitsValue?_ten hall).1 hn).exists_digit c hc
        simp [hnone] at hd
      · rfl
    · rw [if_neg (Nat.not_le_of_lt hlength)]

theorem hasValue_of_isDecimal (h : IsDecimal Text.isDigit text) :
    HasValue text (ofText? (.ofList text)) := by
  have hunmarked := h.markedRadix?
  refine ⟨fun radix hmarked => ?_, fun _ hplain => ?_, fun _ hpointed => ?_⟩
  · simp [markedRadix?_eq_some.2 hmarked] at hunmarked
  · obtain ⟨hne, hall⟩ := h.digits (any_mark_iff.not.2 hplain)
    have hvalue : ofText? (.ofList text) = (integer? 10 text).map .integer := by
      simp [ofText?, hunmarked, any_mark_iff.not.2 hplain]
    rw [hvalue]
    refine ⟨by rw [Option.map_eq_none_iff, integer?_eq_none hne hall], fun v hv => ?_⟩
    obtain ⟨n, hn, rfl⟩ := Option.map_eq_some_iff.1 hv
    rw [integer?_digits hall] at hn
    split at hn
    · obtain ⟨m, hm, rfl⟩ := Option.map_eq_some_iff.1 hn
      exact ⟨m, (digitsValue?_ten hall).1 hm, rfl⟩
    · cases hn
  · have hvalue : ofText? (.ofList text) = (float? text).map .float := by
      simp [ofText?, hunmarked, any_mark_iff.2 hpointed]
    exact ⟨hvalue, by rw [hvalue, Option.map_eq_none_iff, float?_eq_none h]; rfl⟩

end Numeral

open Numeral NumberLiteral

theorem NumberLiteral.hasValue_of_scan (hs : starts cs) (h : scan cs = .ok (text, rest)) :
    HasValue text (ofText? (.ofList text)) := by
  rcases scan_end hs h with ⟨_, _, _, hform, -⟩ | ⟨hdecimal, -⟩
  · exact hasValue_of_isRadixLiteral hform
  · exact hasValue_of_isDecimal hdecimal

/-- The value of every number in a text is the one that its form and its digits say. It has none
only if one of its digits is no decimal digit, or if it is a whole number of too many digits. -/
theorem number_values_denoted (d : Dialect) (source : String) (s : TokenStream)
    (h : tokenize d source = .ok s) : ∀ t ∈ s.tokens, ∀ raw, t.kind = .number raw →
      HasValue raw.toList (ofText? raw) := by
  have hread : ∀ {c cs kind spelling rest},
      Scanned.next d c cs = .ok ⟨.token kind, spelling, rest⟩ →
        ∀ raw, kind = .number raw → HasValue raw.toList (ofText? raw) := by
    rintro c cs _ spelling rest hnext raw rfl
    obtain ⟨hstarts, hscan⟩ := Scanned.next_number hnext
    simpa using hasValue_of_scan hstarts hscan
  intro t ht
  obtain ⟨_, -, hvalue⟩ := TokenStream.spelled_of_tokenize (P := fun kind _ =>
    ∀ raw, kind = .number raw → HasValue raw.toList (ofText? raw)) hread h t ht
  exact hvalue

/-- Hexadecimal digits in both cases, leading zeros, a digit that is not decimal, and a decimal. -/
def numeralsText : String := "0XfE + 007, 1² - 1.5e3"

theorem numeralsText_denoted : ∃ s, tokenize .plain numeralsText = .ok s ∧
    s.tokens.map (·.kind) = [.number "0XfE", .punct .plus, .number "007", .punct .comma,
      .number "1²", .punct .minus, .number "1.5e3"] ∧
    ofText? "0XfE" = some (.integer 254) ∧ ofText? "007" = some (.integer 7) ∧
    ofText? "1²" = none ∧
    ∀ t ∈ s.tokens, ∀ raw, t.kind = .number raw → HasValue raw.toList (ofText? raw) := by
  have hread : (tokenize .plain numeralsText).toOption.map (·.tokens.map (·.kind)) =
      some [.number "0XfE", .punct .plus, .number "007", .punct .comma, .number "1²",
        .punct .minus, .number "1.5e3"] := by
    decide +kernel
  obtain ⟨s, hs, hkinds⟩ := exists_of_toOption hread
  exact ⟨s, hs, hkinds, by decide +kernel, by decide +kernel, by decide +kernel,
    number_values_denoted .plain numeralsText s hs⟩

end JsClass
