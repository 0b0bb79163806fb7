import JsClass.Proofs.Numeral.Legible
import JsClass.Proofs.Token.Spelling

/-!
Why a text is not cut into tokens, and what the numbers among its tokens look like. All faults but
that of a negative escape are causes to report.
-/
namespace JsClass

variable {c : Char} {cs ds text : List Char} {f : LexicalFault} {d : Dialect}

/-- An escape in braces is written with a number below zero. -/
def HasNegativeEscape (cs : List Char) : Prop :=
  ∃ body n, '\\' :: 'u' :: '\x7b' :: (body ++ ['\x7d']) <:+: cs ∧ '\x7d' ∉ body ∧
    Numeral.integer? 16 body = some (.negSucc n)

/-- A fault that the text accounts for. -/
def LexicalFault.IsExplained (cs : List Char) : LexicalFault → Prop
  | .cause _ => True
  | .negativeCodePoint | .codePointUnderflow => HasNegativeEscape cs

theorem LexicalFault.IsExplained.mono (h : f.IsExplained cs) (hsub : cs <:+ ds) :
    f.IsExplained ds := by
  cases f with
  | cause => trivial
  | negativeCodePoint | codePointUnderflow =>
    obtain ⟨body, n, hbody, hn⟩ := h
    exact ⟨body, n, hbody.trans hsub.isInfix, hn⟩

theorem LexicalFault.IsExplained.tail (h : f.IsExplained cs) : f.IsExplained (c :: cs) :=
  h.mono (List.suffix_cons c cs)

/-! Strings. -/

namespace StringLiteral

theorem codePoint_fault {n : Nat} {g : CodePoint → Except LexicalFault Segment}
    (hg : ∀ p, ∃ s, g p = .ok s) (h : (codePoint n >>= g) = .error f) : f.IsExplained cs := by
  unfold codePoint at h
  split at h
  · next p _ =>
    obtain ⟨s, hs⟩ := hg p
    rw [show (Except.ok p >>= g) = g p from rfl, hs] at h
    cases h
  · cases h
    trivial

theorem fixedEscape_fault {letter : Char} {length : Nat}
    (h : fixedEscape letter length cs = .error f) : f.IsExplained ds := by
  unfold fixedEscape at h
  split at h
  · cases h
    trivial
  · exact codePoint_fault (fun _ => ⟨_, rfl⟩) h

theorem negativeFault_isExplained {n : Nat} (h : HasNegativeEscape cs) :
    (negativeFault n).IsExplained cs := by
  unfold negativeFault
  split
  · exact h
  · exact h

theorem bracedEscape_fault (h : bracedEscape cs = .error f) :
    f.IsExplained ('\\' :: 'u' :: '\x7b' :: cs) := by
  unfold bracedEscape at h
  split at h
  · cases h
    trivial
  · cases h
    trivial
  · next body brace rest _ hsplit =>
    have happend := splitWhile_append (· != '\x7d') cs
    have hbody : ∀ x ∈ (splitWhile (· != '\x7d') cs).1, (x != '\x7d') := splitWhile_all
    have hhead : ∀ x ∈ (splitWhile (· != '\x7d') cs).2.head?, (x != '\x7d') = false :=
      fun _ => Scanned.head?_splitWhile
    rw [hsplit] at happend hbody hhead
    obtain rfl : brace = '\x7d' := by simpa using hhead brace rfl
    split at h
    · cases h
      trivial
    · exact codePoint_fault (fun _ => ⟨_, rfl⟩) h
    · next n hn =>
      cases h
      refine negativeFault_isExplained ⟨body, n, ?_, ?_, hn⟩
      · exact ⟨[], rest, by simp [← happend]⟩
      · intro hmem
        simpa using hbody _ hmem

theorem escape_fault (h : escape cs = .error f) : f.IsExplained ('\\' :: cs) := by
  unfold escape at h
  split at h
  · cases h
    trivial
  · exact fixedEscape_fault h
  · exact bracedEscape_fault h
  · exact fixedEscape_fault h
  · cases h
  · split at h
    · cases h
    · split at h
      · cases h
      · split at h
        · cases h
        · split at h
          · cases h
            trivial
          · cases h

theorem body_fault {quote : Char} {fuel : Nat} (h : body quote fuel cs = .error f) :
    f.IsExplained cs := by
  induction fuel generalizing cs with
  | zero =>
    rw [body] at h
    cases h
    trivial
  | succ fuel ih =>
    cases cs with
    | nil =>
      cases h
      trivial
    | cons c cs =>
      rw [body] at h
      split at h
      · cases h
      · split at h
        · next hc =>
          obtain rfl : c = '\\' := by simpa using hc
          cases he : escape cs with
          | error e =>
            simp only [he, bind, Except.bind, Except.error.injEq] at h
            subst h
            exact escape_fault he
          | ok s =>
            cases hb : body quote fuel s.rest with
            | error e =>
              simp only [he, hb, bind, Except.bind, Except.error.injEq] at h
              subst h
              exact ((ih hb).mono ⟨s.spelling, escape_splits he⟩).tail
            | ok r => simp [he, hb, bind, Except.bind, pure, Except.pure] at h
        · split at h
          · cases h
            trivial
          · cases hb : body quote fuel cs with
            | error e =>
              simp only [hb, bind, Except.bind, Except.error.injEq] at h
              subst h
              exact (ih hb).tail
            | ok r => simp [hb, bind, Except.bind, pure, Except.pure] at h

end StringLiteral

/-! Pieces. -/

namespace Scanned

theorem string_fault {quote : Char} (h : string quote cs = .error f) : f.IsExplained cs := by
  cases hb : StringLiteral.body quote cs.length cs with
  | error e =>
    simp only [string, StringLiteral.scan, hb, bind, Except.bind, Except.error.injEq] at h
    subst h
    exact StringLiteral.body_fault hb
  | ok s => simp [string, StringLiteral.scan, hb, bind, Except.bind, pure, Except.pure] at h

theorem token_fault (h : token d c cs = .error f) : f.IsExplained (c :: cs) := by
  unfold token tokenWith at h
  split at h
  · cases h
  · split at h
    · exact (string_fault h).tail
    · split at h
      · unfold number at h
        split at h
        · cases h
        · cases h
          trivial
      · split at h
        · cases h
        · unfold operator at h
          split at h
          · cases h
          · cases h
            trivial

theorem next_fault (h : next d c cs = .error f) : f.IsExplained (c :: cs) := by
  unfold next nextWith at h
  split at h
  · cases h
  · split at h
    · cases h
    · split at h
      · cases h
      · unfold blockComment at h
        split at h
        · cases h
        · cases h
          trivial
      · exact token_fault h

/-- A number is read by the scanner of numbers. -/
theorem next_number {raw : String} {spelling rest : List Char}
    (h : next d c cs = .ok ⟨.token (.number raw), spelling, rest⟩) :
    NumberLiteral.starts (c :: cs) ∧ NumberLiteral.scan (c :: cs) = .ok (raw.toList, rest) := by
  generalize hkind : Kind.number raw = kind at h
  cases isToken_of_next h with
  | number hstarts hscan =>
    cases hkind
    exact ⟨hstarts, by rw [hscan, String.toList_ofList]⟩
  | word => cases (congrArg Kind.word? hkind).trans (Kind.word?_ofWord _)
  | privateName | string | punct => cases hkind

end Scanned

/-! Streams. -/

/-- A number with a digit that has no decimal value, or a whole number with too many digits. -/
def Kind.hasBadDigits : Kind → Bool
  | .number raw =>
    raw.toList.any (fun c => Text.isDigit c && !Numeral.isDecimalDigit c) ||
      raw.toList.all Numeral.isDecimalDigit && Numeral.maxDecimalDigits < raw.toList.length
  | _ => false

theorem ofText?_of_hasBadDigits {raw : String} {rest : List Char} (hs : NumberLiteral.starts cs)
    (h : NumberLiteral.scan cs = .ok (raw.toList, rest))
    (hgood : (Kind.number raw).hasBadDigits = false) : (Numeral.ofText? raw).isSome := by
  simp only [Kind.hasBadDigits, Bool.or_eq_false_iff, List.any_eq_false, Bool.and_eq_true,
    Bool.not_eq_true', not_and, Bool.not_eq_false, Bool.and_eq_false_imp, List.all_eq_true,
    decide_eq_false_iff_not, Nat.not_lt] at hgood
  rw [← String.ofList_toList (s := raw)]
  exact NumberLiteral.ofText?_of_scan hs h hgood.1 hgood.2

/-- Every number that is read has a value, unless its digits are bad. -/
theorem Scanned.number_of_next {kind : Kind} {spelling rest : List Char} {raw : String}
    (h : next d c cs = .ok ⟨.token kind, spelling, rest⟩) (hkind : kind = .number raw)
    (hgood : kind.hasBadDigits = false) : (Numeral.ofText? raw).isSome := by
  subst hkind
  obtain ⟨hstarts, hnumber⟩ := next_number h
  exact ofText?_of_hasBadDigits hstarts hnumber hgood

namespace TokenStream

variable {fuel : Nat} {place : Place} {newline : Bool} {e : LexicalError}

theorem scan_fault (h : scan d fuel place newline cs = .error e) : e.fault.IsExplained cs := by
  induction fuel generalizing place newline cs with
  | zero => cases h
  | succ fuel ih =>
    cases cs with
    | nil => cases h
    | cons c cs =>
      rw [scan_cons] at h
      cases hnext : Scanned.next d c cs with
      | error fault =>
        simp only [hnext, Except.error.injEq] at h
        subst h
        exact Scanned.next_fault hnext
      | ok piece =>
        obtain ⟨piece, spelling, rest⟩ := piece
        have hrest : rest <:+ c :: cs := ⟨spelling, (Scanned.next_splits hnext).1⟩
        cases piece with
        | trivia breaksLine =>
          simp only [hnext] at h
          exact (ih h).mono hrest
        | token kind =>
          simp only [hnext] at h
          cases hscan : scan d fuel (place.after spelling) false rest with
          | error e' =>
            simp only [hscan, bind, Except.bind, Except.error.injEq] at h
            subst h
            exact (ih hscan).mono hrest
          | ok later => simp [hscan, bind, Except.bind, pure, Except.pure] at h

end TokenStream

end JsClass
