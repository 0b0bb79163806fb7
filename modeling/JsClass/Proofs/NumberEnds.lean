import JsClass.Proofs.LongestNumber
import JsClass.Proofs.Token.Faults
import JsClass.Proofs.TokenCover

/-!
What may stand behind a number: nothing that begins an identifier, and no digit behind a decimal.
Behind the digits of a radix there may be a digit that the radix does not have, and there the text
is cut into two numbers that touch.
-/
namespace JsClass

variable {c mark : Char} {cs text rest pre : List Char} {s : TokenStream} {d : Dialect}

namespace NumberLiteral

open Numeral

/-- A zero, the mark of a radix, and digits of the radix. -/
inductive IsRadixLiteral (radix : Nat) (alphabet : List Char) : List Char → List Char → Prop where
  | intro {marks : List Char} {mark : Char} {digits : List Char}
    (form : (radix, marks, alphabet) ∈ radixForms) (hmark : mark ∈ marks) (hne : digits ≠ [])
    (hdigits : ∀ d ∈ digits, d ∈ alphabet) :
    IsRadixLiteral radix alphabet ('0' :: mark :: digits) digits

/-- What a radix reads goes as far as its digits do. -/
theorem radixDigits_end {radix : Nat} (hradix : radixOfMark? mark = some radix)
    (h : radixDigits radix mark cs = .ok (text, rest)) :
    ∃ alphabet digits, IsRadixLiteral radix alphabet text digits ∧
      ∀ c ∈ rest.head?, c ∉ alphabet := by
  obtain ⟨hne, rfl, rfl⟩ := radixDigits_eq_ok.1 h
  obtain ⟨marks, alphabet, form, hmark⟩ := radixOfMark?_eq_some.1 hradix
  refine ⟨alphabet, _, .intro form hmark hne fun d hd => ?_, fun c hc hmem => ?_⟩
  · exact (isRadixDigit_iff form).1 (splitWhile_all d hd)
  · have hdigit := (isRadixDigit_iff form).2 hmem
    rw [Scanned.head?_splitWhile hc] at hdigit
    cases hdigit

theorem fraction_end (hcs : ∀ c ∈ cs.head?, Text.isDigit c = false) :
    ∀ c ∈ (fraction cs).2.head?, Text.isDigit c = false := by
  unfold fraction
  split
  · exact fun c => Scanned.head?_splitWhile
  · exact hcs

theorem decimal_end (h : decimal cs = .ok (text, rest)) :
    ∀ c ∈ rest.head?, Text.isDigit c = false := by
  obtain ⟨exp, hexp, -⟩ := decimal_eq_ok.1 h
  rcases exponent_eq_ok.1 hexp with ⟨-, -, rfl⟩ | ⟨_, _, -, -, -, -, rfl⟩
  · exact fraction_end fun c => Scanned.head?_splitWhile
  · exact fun c => Scanned.head?_splitWhile

/-- How a literal ends, by its form. -/
theorem scan_end (hs : starts cs) (h : scan cs = .ok (text, rest)) :
    (∃ radix alphabet digits, IsRadixLiteral radix alphabet text digits ∧
      ∀ c ∈ rest.head?, c ∉ alphabet) ∨
    IsDecimal Text.isDigit text ∧ ∀ c ∈ rest.head?, Text.isDigit c = false := by
  rcases unchecked_eq_ok (scan_eq_ok.1 h).1 with ⟨radix, mark, behind, -, hradix, h⟩ | ⟨-, h⟩
  · exact Or.inl ⟨radix, radixDigits_end hradix h⟩
  · exact Or.inr ⟨decimal_isDecimal hs h, decimal_end h⟩

end NumberLiteral

open NumberLiteral

theorem NumberLiteral.starts_of_isDigit (hc : Text.isDigit c) : starts (c :: cs) := by
  unfold starts
  split
  · next heq => cases heq
  · next heq =>
    cases heq
    exact absurd hc (by decide)
  · next heq =>
    cases heq
    exact hc

/-- What stands behind a number begins no identifier. If it is a digit, then not one of the
number's radix, and another number begins with it. -/
structure Token.EndsNumber (text : List Char) (tokens : List Token) (t : Token) (raw : String)
    (stop : Nat) : Prop where
  spans : t.Spans text stop
  noIdentifier : ∀ c ∈ text[stop]?, isIdentifierStart c = false
  outside : ∀ c ∈ text[stop]?, Text.isDigit c →
    ∃ radix alphabet digits, IsRadixLiteral radix alphabet raw.toList digits ∧ c ∉ alphabet
  touches : ∀ c ∈ text[stop]?, Text.isDigit c →
    ∃ u ∈ tokens, u.place.offset = stop ∧ ∃ raw', u.kind = .number raw'

theorem Token.EndsNumber.cons {tokens : List Token} {t u : Token} {raw : String} {stop : Nat}
    (h : t.EndsNumber text tokens raw stop) : t.EndsNumber text (u :: tokens) raw stop :=
  ⟨h.spans, h.noIdentifier, h.outside, fun c hc hdigit =>
    let ⟨u, hu, hnext⟩ := h.touches c hc hdigit
    ⟨u, List.mem_cons_of_mem _ hu, hnext⟩⟩

namespace TokenStream

variable {newline : Bool}

/-- A text that begins with a digit begins with a number. -/
theorem Scans.first_number (h : Scans d pre newline cs s) (hc : c ∈ cs.head?)
    (hdigit : Text.isDigit c) :
    ∃ t ∈ s.tokens, t.place.offset = pre.length ∧ ∃ raw, t.kind = .number raw := by
  cases h with
  | done => cases hc
  | trivia _ hnext =>
    cases hc
    rw [Scanned.next_of_starts (starts_of_isDigit hdigit)] at hnext
    obtain ⟨_, _, -, heq⟩ := Scanned.number_eq_ok.1 hnext
    cases heq
  | token _ hnext =>
    cases hc
    rw [Scanned.next_of_starts (starts_of_isDigit hdigit)] at hnext
    obtain ⟨_, _, -, heq⟩ := Scanned.number_eq_ok.1 hnext
    cases heq
    exact ⟨_, List.mem_cons_self, offset_after pre, _, rfl⟩

theorem Scans.endsNumber (h : Scans d pre newline cs s) : ∀ t ∈ s.tokens, ∀ raw,
    t.kind = .number raw → ∃ stop, t.EndsNumber (pre ++ cs) s.tokens raw stop := by
  induction h with
  | done => simp
  | trivia hsplit hnext h ih => rwa [List.append_assoc, hsplit] at ih
  | @token pre newline c cs spelling rest kind s hsplit hnext h ih =>
    rw [List.append_assoc, hsplit] at ih
    refine List.forall_mem_cons.2 ⟨?_, fun t ht raw hraw => ?_⟩
    · rintro raw rfl
      obtain ⟨hstarts, hscan⟩ := Scanned.next_number hnext
      have hbehind : (pre ++ c :: cs)[pre.length + spelling.length]? = rest.head? := by
        rw [← hsplit, getElem?_behind]
      refine ⟨_, spans_of_next hnext, ?_, ?_, ?_⟩
      · rw [hbehind]
        exact (scan_eq_ok.1 hscan).2
      · rw [hbehind]
        intro x hx hdigit
        rcases scan_end hstarts hscan with ⟨radix, alphabet, digits, hform, hend⟩ | ⟨-, hend⟩
        · exact ⟨radix, alphabet, digits, hform, hend x hx⟩
        · rw [hend x hx] at hdigit
          cases hdigit
      · rw [hbehind]
        intro x hx hdigit
        obtain ⟨u, hu, hoffset, hkind⟩ := h.first_number hx hdigit
        exact ⟨u, List.mem_cons_of_mem _ hu, by simpa using hoffset, hkind⟩
    · obtain ⟨stop, hends⟩ := ih t ht raw hraw
      exact ⟨stop, hends.cons⟩

end TokenStream

/-- No number is followed by the beginning of an identifier, and a decimal is followed by no digit
either. A digit behind a number with a radix is one that the radix does not have, and the next
number begins there. -/
theorem number_ends (d : Dialect) (source : String) (s : TokenStream)
    (h : tokenize d source = .ok s) : ∀ t ∈ s.tokens, ∀ raw, t.kind = .number raw →
      ∃ stop, t.EndsNumber source.toList s.tokens raw stop :=
  (TokenStream.scans_of_tokenize h).endsNumber

/-- Numbers in front of blanks, of a point, and of a digit that is not octal. -/
def numbersText : String := "1.5e3 .5.x + 0x1F; 0o178"

theorem numbersText_ends : ∃ s, tokenize .plain numbersText = .ok s ∧
    s.tokens.map (·.kind) = [.number "1.5e3", .number ".5", .punct .dot, .name "x", .punct .plus,
      .number "0x1F", .punct .semicolon, .number "0o17", .number "8"] ∧
    ∀ t ∈ s.tokens, ∀ raw, t.kind = .number raw →
      ∃ stop, t.EndsNumber numbersText.toList s.tokens raw stop := by
  have hread : (tokenize .plain numbersText).toOption.map (·.tokens.map (·.kind)) =
      some [.number "1.5e3", .number ".5", .punct .dot, .name "x", .punct .plus,
        .number "0x1F", .punct .semicolon, .number "0o17", .number "8"] := by
    decide +kernel
  obtain ⟨s, hs, hkinds⟩ := exists_of_toOption hread
  exact ⟨s, hs, hkinds, number_ends .plain numbersText s hs⟩

/-- A binary number with a digit behind it that is not binary. -/
def splitNumberText : String := "0b12"

/-- A digit may stand behind a number. -/
theorem numbers_touch : ¬ ∀ d source s, tokenize d source = .ok s →
    ∀ t ∈ s.tokens, ∀ raw, t.kind = .number raw → ∃ stop, t.Spans source.toList stop ∧
      ∀ c ∈ source.toList[stop]?, Text.isDigit c = false ∧ isIdentifierStart c = false := by
  intro h
  have hread : (tokenize .plain splitNumberText).toOption.map (·.tokens) =
      some [⟨.number "0b1", ⟨⟨1, 1⟩, 0⟩, false⟩, ⟨.number "2", ⟨⟨1, 4⟩, 3⟩, false⟩] := by
    decide +kernel
  obtain ⟨s, hs, htokens⟩ := exists_of_toOption hread
  have hfirst : (⟨.number "0b1", ⟨⟨1, 1⟩, 0⟩, false⟩ : Token) ∈ s.tokens := by simp [htokens]
  obtain ⟨stop, hspans, hend⟩ := h .plain splitNumberText s hs _ hfirst _ rfl
  have hlength : (splitNumberText.toList.take stop).length = 3 :=
    congrArg List.length hspans.spelling
  have hstop : stop = 3 := by
    have hinside := hspans.inside
    rw [List.length_take] at hlength
    omega
  subst hstop
  exact absurd (hend '2' rfl).1 (by decide)

end JsClass
