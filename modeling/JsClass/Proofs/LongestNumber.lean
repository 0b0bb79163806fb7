import JsClass.Proofs.Grammar.Success
import JsClass.Proofs.Numeral.Legible
import JsClass.Proofs.Token.Spelling

/-!
Where a number ends. It is the longest literal at its place, and no identifier may begin behind it:
a literal that the scanner has begun and cannot finish is a shorter one with a letter behind.
-/
namespace JsClass

variable {c : Char} {cs ds text rest other : List Char}

/-- The longest part at the start of a text that has a property. -/
structure IsLongest (P : List Char → Prop) (cs text : List Char) : Prop where
  start : text <+: cs
  holds : P text
  longest : ∀ other, P other → other <+: cs → other.length ≤ text.length

/-- A run of characters that begins a text is cut short, or it is all that can be taken. -/
theorem splitWhile_cases {p : Char → Bool} (hds : ∀ d ∈ ds, p d) (h : ds ++ rest = cs) :
    (∃ d ∈ rest.head?, p d) ∧ ds.length ≤ (splitWhile p cs).1.length ∨
      ds = (splitWhile p cs).1 ∧ rest = (splitWhile p cs).2 := by
  subst h
  simp only [splitWhile, List.takeWhile_append_of_pos hds, List.dropWhile_append_of_pos hds]
  cases rest with
  | nil => simp
  | cons d rest =>
    cases hd : p d with
    | true => exact Or.inl ⟨⟨d, rfl, hd⟩, by simp⟩
    | false => exact Or.inr (by simp [hd])

namespace NumberLiteral

open Numeral

/-! The forms of a literal. -/

/-- A radix with its marks and its digits. -/
def radixForms : List (Nat × List Char × List Char) :=
  [(16, "xX".toList, "0123456789abcdefABCDEF".toList), (8, "oO".toList, "01234567".toList),
    (2, "bB".toList, "01".toList)]

/-- A literal: digits behind a zero and the mark of their radix, or a decimal. -/
inductive IsLiteral : List Char → Prop where
  | radix {radix : Nat} {marks alphabet : List Char} {mark : Char} {digits : List Char}
    (form : (radix, marks, alphabet) ∈ radixForms) (hmark : mark ∈ marks) (hne : digits ≠ [])
    (hdigits : ∀ d ∈ digits, d ∈ alphabet) : IsLiteral ('0' :: mark :: digits)
  | decimal {text : List Char} (h : IsDecimal Text.isDigit text) : IsLiteral text

variable {radix : Nat} {marks alphabet : List Char} {mark d : Char}

theorem isRadixDigit_iff (form : (radix, marks, alphabet) ∈ radixForms) :
    isRadixDigit radix d ↔ d ∈ alphabet := by
  have hlow : ∀ f ∈ radixForms, ∀ n < 0x80,
      isRadixDigit f.1 (Char.ofNat n) = f.2.2.contains (Char.ofNat n) := by decide +kernel
  have halphabet : radixForms.all fun f => f.2.2.all (·.toNat < 0x80) := by decide
  simp only [List.all_eq_true, decide_eq_true_eq] at halphabet
  by_cases hd : d.toNat < 0x80
  · have hd := hlow _ form d.toNat hd
    rw [Char.ofNat_toNat] at hd
    rw [hd, List.contains_iff_mem]
  · have hnot : d ∉ alphabet := fun hmem => hd (halphabet _ form d hmem)
    simp [isRadixDigit, hd, hnot]

theorem radixOfMark?_eq_some : radixOfMark? mark = some radix ↔
    ∃ marks alphabet, (radix, marks, alphabet) ∈ radixForms ∧ mark ∈ marks := by
  simp only [radixOfMark?, radixForms]
  grind

/-- A mark is a letter, which goes on with no number. -/
theorem mark_not_decimal (h : radixOfMark? mark = some radix) :
    isIdentifierStart mark ∧ Text.isDigit mark = false ∧ mark ≠ '.' ∧ mark ≠ 'e' ∧ mark ≠ 'E' := by
  simp only [radixOfMark?, Bool.or_eq_true, beq_iff_eq] at h
  split at h
  · next hmark => rcases hmark with rfl | rfl <;> decide
  · split at h
    · next hmark => rcases hmark with rfl | rfl <;> decide
    · split at h
      · next hmark => rcases hmark with rfl | rfl <;> decide
      · cases h

/-! Decimals. -/

/-- What is taken of a text as an exponent: nothing if its mark has no digits behind. -/
def exponentText (cs : List Char) : List Char :=
  match exponent cs with
  | .ok (text, _) => text
  | .error _ => []

/-- What is taken of a text as a decimal. -/
def decimalText (cs : List Char) : List Char :=
  let whole := splitWhile Text.isDigit cs
  let places := fraction whole.2
  whole.1 ++ (places.1 ++ exponentText places.2)

/-- An exponent that cannot be finished leaves its mark behind, which is a letter. -/
theorem exponent_cases (cs : List Char) : ∃ rest, exponentText cs ++ rest = cs ∧
    (exponent cs = .ok (exponentText cs, rest) ∨
      (∃ e, exponent cs = .error e) ∧ ∃ c ∈ rest.head?, isIdentifierStart c) := by
  unfold exponentText
  cases h : exponent cs with
  | ok r => exact ⟨r.2, exponent_split h, Or.inl rfl⟩
  | error e =>
    refine ⟨cs, rfl, Or.inr ⟨⟨e, rfl⟩, ?_⟩⟩
    cases cs with
    | nil => cases h
    | cons mark cs =>
      have hmark : mark = 'e' ∨ mark = 'E' := by
        rw [exponent] at h
        split at h
        · next hmark => simpa using hmark
        · cases h
      refine ⟨mark, rfl, ?_⟩
      rcases hmark with rfl | rfl <;> decide

theorem decimal_cases (cs : List Char) : ∃ rest, decimalText cs ++ rest = cs ∧
    (decimal cs = .ok (decimalText cs, rest) ∨
      (∃ e, decimal cs = .error e) ∧ ∃ c ∈ rest.head?, isIdentifierStart c) := by
  obtain ⟨rest, hsplit, hcases⟩ :=
    exponent_cases (fraction (splitWhile Text.isDigit cs).2).2
  refine ⟨rest, ?_, ?_⟩
  · rw [decimalText, List.append_assoc, List.append_assoc, hsplit, fraction_split,
      splitWhile_append]
  · rcases hcases with hok | ⟨⟨e, herror⟩, hletter⟩
    · left
      simp only [decimal, hok, decimalText, List.append_assoc]
      rfl
    · right
      refine ⟨⟨e, ?_⟩, hletter⟩
      simp only [decimal, herror]
      rfl

theorem exponentText_isExponent (cs : List Char) :
    IsExponent Text.isDigit (exponentText cs) := by
  unfold exponentText
  split
  · next h => exact exponent_isExponent h
  · exact .none

theorem decimalText_isDecimal (hs : starts cs) : IsDecimal Text.isDigit (decimalText cs) :=
  ⟨_, _, _, rfl, splitWhile_all, fraction_isFraction _, exponentText_isExponent _,
    digits_of_starts hs⟩

theorem sign_of_digit (h : ∀ d ∈ cs.head?, Text.isDigit d) : sign cs = ([], cs) := by
  unfold sign
  split
  · exact absurd (h '+' rfl) (by decide)
  · exact absurd (h '-' rfl) (by decide)
  · rfl

/-- No exponent is longer than the one that is taken. -/
theorem exponent_length_le {exp : List Char} (he : IsExponent Text.isDigit exp)
    (h : exp ++ rest = cs) : exp.length ≤ (exponentText cs).length := by
  cases he with
  | none => exact Nat.zero_le _
  | @mark mark sign' ds hmark hsign hne hds =>
    subst h
    have hbehind : sign (sign' ++ (ds ++ rest)) = (sign', ds ++ rest) := by
      rcases hsign with rfl | rfl | rfl
      · obtain ⟨d, ds, rfl⟩ := List.exists_cons_of_ne_nil hne
        exact sign_of_digit (by simpa using hds d List.mem_cons_self)
      · rfl
      · rfl
    have hmark : (mark == 'e' || mark == 'E') = true := by simpa using hmark
    have htake : (ds ++ rest).takeWhile Text.isDigit = ds ++ rest.takeWhile Text.isDigit :=
      List.takeWhile_append_of_pos hds
    simp [exponentText, exponent, hmark, hbehind, splitWhile, htake, hne]

/-- No exponent begins with a digit or with a point. -/
theorem exponent_eq_nil {exp : List Char} (he : IsExponent Text.isDigit exp)
    (h : ∃ c ∈ (exp ++ rest).head?, Text.isDigit c ∨ c = '.') : exp = [] := by
  cases he with
  | none => rfl
  | mark hmark =>
    obtain ⟨c, hc, hstart⟩ := h
    obtain rfl : _ = c := by simpa using hc
    rcases hmark with rfl | rfl
    · exact absurd hstart (by decide)
    · exact absurd hstart (by decide)

/-- A point and digits that begin a text are left out or cut short, or they are all that can be
taken. -/
theorem fraction_cases {places : List Char} (hp : IsFraction Text.isDigit places)
    (h : places ++ rest = cs) :
    (∃ c ∈ rest.head?, Text.isDigit c ∨ c = '.') ∧ places.length ≤ (fraction cs).1.length ∨
      places = (fraction cs).1 ∧ rest = (fraction cs).2 := by
  subst h
  cases hp with
  | none =>
    by_cases hpoint : '.' ∈ rest.head?
    · exact Or.inl ⟨⟨'.', hpoint, Or.inr rfl⟩, Nat.zero_le _⟩
    · right
      unfold fraction
      split
      · next heq =>
        obtain rfl : rest = _ := heq
        simp at hpoint
      · exact ⟨rfl, rfl⟩
  | @point ds hds =>
    have hcases := splitWhile_cases hds (rfl : ds ++ rest = _)
    rcases hcases with ⟨⟨d, hd, hdigit⟩, hle⟩ | ⟨htake, hdrop⟩
    · exact Or.inl ⟨⟨d, hd, Or.inl hdigit⟩, Nat.succ_le_succ hle⟩
    · exact Or.inr ⟨congrArg ('.' :: ·) htake, hdrop⟩

/-- No fraction with an exponent is longer than what is taken. -/
theorem places_length_le {places exp : List Char} (hp : IsFraction Text.isDigit places)
    (he : IsExponent Text.isDigit exp) (h : places ++ (exp ++ rest) = cs) :
    (places ++ exp).length ≤ ((fraction cs).1 ++ exponentText (fraction cs).2).length := by
  simp only [List.length_append]
  rcases fraction_cases hp h with ⟨hstart, hle⟩ | ⟨hplaces, hbehind⟩
  · rw [exponent_eq_nil he hstart]
    simp only [List.length_nil]
    omega
  · have hexp := exponent_length_le he hbehind
    rw [← hplaces]
    omega

/-- No decimal at the start of a text is longer than the one that is taken. -/
theorem decimal_length_le (ho : IsDecimal Text.isDigit other) (h : other <+: cs) :
    other.length ≤ (decimalText cs).length := by
  obtain ⟨whole, places, exp, rfl, hwhole, hp, he, -⟩ := ho.parts
  obtain ⟨behind, h⟩ := h
  rw [List.append_assoc, List.append_assoc] at h
  have htaken : (decimalText cs).length = (splitWhile Text.isDigit cs).1.length +
      ((fraction (splitWhile Text.isDigit cs).2).1 ++
        exponentText (fraction (splitWhile Text.isDigit cs).2).2).length := List.length_append
  rw [List.length_append, htaken]
  rcases splitWhile_cases hwhole h with ⟨⟨d, hd, hdigit⟩, hle⟩ | ⟨hwhole, hbehind⟩
  · -- a digit is left behind the whole number, so nothing else was taken
    have hplaces : places = [] := by
      cases hp with
      | none => rfl
      | point =>
        obtain rfl : '.' = d := by simpa using hd
        exact absurd hdigit (by decide)
    subst hplaces
    rw [exponent_eq_nil he ⟨d, hd, Or.inl hdigit⟩]
    exact Nat.le_trans hle (Nat.le_add_right _ _)
  · have hplaces := places_length_le hp he hbehind
    rw [← hwhole]
    omega

/-! Literals. -/

/-- Without a mark behind a zero the decimal is the longest literal. -/
theorem decimal_longest (hs : starts cs) (hplain : ∀ mark rest radix, cs = '0' :: mark :: rest →
    radixOfMark? mark ≠ some radix) : IsLongest IsLiteral cs (decimalText cs) := by
  obtain ⟨rest, hsplit, -⟩ := decimal_cases cs
  refine ⟨⟨rest, hsplit⟩, .decimal (decimalText_isDecimal hs), fun other hother hstart => ?_⟩
  cases hother with
  | decimal h => exact decimal_length_le h hstart
  | radix form hmark =>
    obtain ⟨behind, rfl⟩ := hstart
    exact absurd (radixOfMark?_eq_some.2 ⟨_, _, form, hmark⟩) (hplain _ _ _ rfl)

/-- Of a zero and a mark only the zero is a decimal. -/
theorem decimalText_mark (h : radixOfMark? mark = some radix) :
    decimalText ('0' :: mark :: rest) = ['0'] := by
  obtain ⟨-, hdigit, hpoint, he, he'⟩ := mark_not_decimal h
  have hzero : Text.isDigit '0' = true := by decide
  have hfraction : fraction (mark :: rest) = ([], mark :: rest) := by
    unfold fraction
    split
    · next heq =>
      cases heq
      exact absurd rfl hpoint
    · rfl
  simp [decimalText, splitWhile, hzero, hdigit, hfraction, exponentText, exponent, he, he']

/-- What is taken of a text that begins with a zero and a mark: the zero alone if no digit of the
radix is behind them. -/
def radixText (radix : Nat) (mark : Char) (cs : List Char) : List Char :=
  match (splitWhile (isRadixDigit radix) cs).1 with
  | [] => ['0']
  | digit :: digits => '0' :: mark :: digit :: digits

theorem radix_length_le (h : radixOfMark? mark = some radix) (ho : IsLiteral other)
    (hstart : other <+: '0' :: mark :: cs) : other.length ≤ (radixText radix mark cs).length := by
  cases ho with
  | decimal hdecimal =>
    have hle := decimal_length_le hdecimal hstart
    rw [decimalText_mark h] at hle
    refine Nat.le_trans hle ?_
    unfold radixText
    split <;> simp
  | @radix radix' _ _ mark' ds form hmark hne hds =>
    obtain ⟨behind, hbehind⟩ := hstart
    simp only [List.cons_append, List.cons.injEq, true_and] at hbehind
    obtain ⟨rfl, hsplit⟩ := hbehind
    have hradix := radixOfMark?_eq_some.2 ⟨_, _, form, hmark⟩
    obtain rfl : radix' = radix := Option.some.inj (hradix.symm.trans h)
    have hds : ∀ d ∈ ds, isRadixDigit radix' d := fun d hd => (isRadixDigit_iff form).2 (hds d hd)
    have hle : ds.length ≤ (splitWhile (isRadixDigit radix') cs).1.length := by
      rcases splitWhile_cases hds hsplit with ⟨-, hle⟩ | ⟨heq, -⟩
      · exact hle
      · exact Nat.le_of_eq (congrArg List.length heq)
    have hpos := List.length_pos_iff.2 hne
    unfold radixText
    split
    · next hnil =>
      rw [hnil, List.length_nil] at hle
      omega
    · next htake =>
      rw [htake] at hle
      exact Nat.succ_le_succ (Nat.succ_le_succ hle)

theorem radixText_isLiteral (h : radixOfMark? mark = some radix) (cs : List Char) :
    IsLiteral (radixText radix mark cs) := by
  unfold radixText
  split
  · refine .decimal ⟨['0'], [], [], rfl, ?_, .none, .none, by simp⟩
    simpa using (by decide : Text.isDigit '0' = true)
  · next htake =>
    obtain ⟨marks, alphabet, form, hmark⟩ := radixOfMark?_eq_some.1 h
    exact .radix form hmark (List.cons_ne_nil _ _) fun d hd =>
      (isRadixDigit_iff form).1 (splitWhile_all d (htake ▸ hd))

/-- A mark without digits is left behind the zero, and it is a letter. -/
theorem radixDigits_cases (h : radixOfMark? mark = some radix) (cs : List Char) :
    ∃ rest, radixText radix mark cs ++ rest = '0' :: mark :: cs ∧
      (radixDigits radix mark cs = .ok (radixText radix mark cs, rest) ∨
        (∃ e, radixDigits radix mark cs = .error e) ∧ ∃ c ∈ rest.head?, isIdentifierStart c) := by
  have hsplit := splitWhile_append (isRadixDigit radix) cs
  cases htake : (splitWhile (isRadixDigit radix) cs).1 with
  | nil =>
    refine ⟨mark :: cs, by simp [radixText, htake], Or.inr ⟨⟨.missingDigits radix, ?_⟩,
      mark, rfl, ?_⟩⟩
    · simp [radixDigits, htake]
    · exact (mark_not_decimal h).1
  | cons digit digits =>
    rw [htake, List.cons_append] at hsplit
    refine ⟨(splitWhile (isRadixDigit radix) cs).2, ?_, Or.inl ?_⟩
    · simp [radixText, htake, hsplit]
    · simp [radixDigits, radixText, htake]

/-- The scanner takes the longest literal, or it gives up in front of a letter. -/
theorem unchecked_cases (hs : starts cs) : ∃ text rest, text ++ rest = cs ∧
    IsLongest IsLiteral cs text ∧ (unchecked cs = .ok (text, rest) ∨
      (∃ e, unchecked cs = .error e) ∧ ∃ c ∈ rest.head?, isIdentifierStart c) := by
  by_cases hmark : ∃ mark rest radix, cs = '0' :: mark :: rest ∧ radixOfMark? mark = some radix
  · obtain ⟨mark, rest, radix, rfl, hmark⟩ := hmark
    obtain ⟨behind, hsplit, hcases⟩ := radixDigits_cases hmark rest
    have heq : unchecked ('0' :: mark :: rest) = radixDigits radix mark rest :=
      unchecked_marked hmark
    exact ⟨_, behind, hsplit, ⟨⟨behind, hsplit⟩, radixText_isLiteral hmark rest,
      fun _ => radix_length_le hmark⟩, heq ▸ hcases⟩
  · have hplain : ∀ mark rest radix, cs = '0' :: mark :: rest → radixOfMark? mark ≠ some radix :=
      fun mark rest radix hcs hradix => hmark ⟨mark, rest, radix, hcs, hradix⟩
    obtain ⟨rest, hsplit, hcases⟩ := decimal_cases cs
    have heq : unchecked cs = decimal cs := unchecked_decimal hplain
    exact ⟨_, rest, hsplit, decimal_longest hs hplain, heq ▸ hcases⟩

/-- The longest literal is scanned unless an identifier begins behind it. -/
theorem scan_longest (hs : starts cs) : ∃ text rest, text ++ rest = cs ∧
    IsLongest IsLiteral cs text ∧
    ((∃ c ∈ rest.head?, isIdentifierStart c) → ∃ e, scan cs = .error e) ∧
    ((∀ c ∈ rest.head?, isIdentifierStart c = false) → scan cs = .ok (text, rest)) := by
  obtain ⟨text, rest, hsplit, hlongest, hcases⟩ := unchecked_cases hs
  refine ⟨text, rest, hsplit, hlongest, ?_, ?_⟩
  · rintro ⟨c, hc, hstart⟩
    rcases hcases with hok | ⟨⟨e, herror⟩, -⟩
    · refine ⟨.identifierAfterNumber, ?_⟩
      have hany : rest.head?.any isIdentifierStart := (Option.any_eq_true _ _).2 ⟨c, hc, hstart⟩
      simp [scan, hok, bind, Except.bind, hany]
    · exact ⟨e, by simp [scan, herror, bind, Except.bind]⟩
  · intro hend
    have hany : rest.head?.any isIdentifierStart = false := (Option.any_eq_false _ _).2 hend
    rcases hcases with hok | ⟨-, c, hc, hstart⟩
    · simp [scan, hok, bind, Except.bind, pure, Except.pure, hany]
    · rw [hend c hc] at hstart
      cases hstart

end NumberLiteral

/-- A text that begins like a number is read as one. -/
theorem Scanned.next_of_starts {d : Dialect} (h : NumberLiteral.starts (c :: cs)) :
    next d c cs = number (c :: cs) := by
  have hfirst : Text.isDigit c ∨ c = '.' := by
    unfold NumberLiteral.starts at h
    split at h
    · cases h
    · next heq =>
      cases heq
      exact Or.inr rfl
    · next heq =>
      cases heq
      exact Or.inl h
  have hblank : Text.isBlank c = false := by
    rcases hfirst with hdigit | rfl
    · exact Text.isBlank_of_isDigit hdigit
    · decide
  have hne : ∀ x : Char, Text.isDigit x = false → x ≠ '.' → c ≠ x := by
    rintro x hdigit hpoint rfl
    rcases hfirst with h | h
    · rw [hdigit] at h
      cases h
    · exact hpoint h
  have hslash : c ≠ '/' := hne '/' (by decide) (by decide)
  have hquotes : (c == '"' || c == '\'') = false := by
    simp [hne '"' (by decide) (by decide), hne '\'' (by decide) (by decide)]
  have hsigil : (c == '#') = false := beq_false_of_ne (hne '#' (by decide) (by decide))
  rw [next_eq_token hblank hslash]
  simp [token, tokenWith, hsigil, hquotes, h]

/-- Where a number begins, the scanner reads the longest literal there is as one token, or it fails
at the place where the literal begins if the character behind it begins an identifier. -/
theorem TokenStream.number_is_longest_literal (d : Dialect) (fuel : Nat) (place : Place)
    (newline : Bool) (c : Char) (cs : List Char) (h : NumberLiteral.starts (c :: cs)) :
    ∃ text rest, text ++ rest = c :: cs ∧ IsLongest NumberLiteral.IsLiteral (c :: cs) text ∧
      ((∃ x ∈ rest.head?, isIdentifierStart x) → ∃ cause,
        scan d (fuel + 1) place newline (c :: cs) = .error ⟨.cause cause, place.toPosition⟩) ∧
      ((∀ x ∈ rest.head?, isIdentifierStart x = false) →
        scan d (fuel + 1) place newline (c :: cs) = do
          let s ← scan d fuel (place.after text) false rest
          return { s with tokens := ⟨.number (.ofList text), place, newline⟩ :: s.tokens }) := by
  obtain ⟨text, rest, hsplit, hlongest, herror, hok⟩ := NumberLiteral.scan_longest h
  refine ⟨text, rest, hsplit, hlongest, fun hstart => ?_, fun hend => ?_⟩
  · obtain ⟨cause, hcause⟩ := herror hstart
    refine ⟨cause, ?_⟩
    rw [scan_cons, Scanned.next_of_starts h, Scanned.number, hcause]
  · rw [scan_cons, Scanned.next_of_starts h, Scanned.number, hok hend]

/-- A number, and a point that cannot belong to it. -/
def numberText : String := "1.5e3.f"

theorem TokenStream.numberText_longest : NumberLiteral.starts numberText.toList ∧
    IsLongest NumberLiteral.IsLiteral numberText.toList "1.5e3".toList := by
  have hstarts : NumberLiteral.starts numberText.toList := by decide
  refine ⟨hstarts, ?_⟩
  have hread : (scan .plain 7 .start false numberText.toList).toOption.map
      (·.tokens.map (·.kind)) = some [.number "1.5e3", .punct .dot, .name "f"] := by
    decide +kernel
  obtain ⟨s, hs, hkinds⟩ := exists_of_toOption hread
  obtain ⟨text, rest, -, hlongest, herror, hok⟩ :=
    number_is_longest_literal .plain 6 .start false '1' ".5e3.f".toList hstarts
  have hend : ∀ x ∈ rest.head?, isIdentifierStart x = false := by
    intro x hx
    rw [Bool.eq_false_iff]
    intro hstart
    obtain ⟨cause, hcause⟩ := herror ⟨x, hx, hstart⟩
    cases hs.symm.trans hcause
  have hscan := hs.symm.trans (hok hend)
  cases hlater : scan .plain 6 (Place.start.after text) false rest with
  | error e => simp [hlater, bind, Except.bind] at hscan
  | ok later =>
    simp only [hlater, bind, Except.bind, pure, Except.pure, Except.ok.injEq] at hscan
    subst hscan
    simp only [List.map_cons, List.cons.injEq, Kind.number.injEq] at hkinds
    have htext : text = "1.5e3".toList := by rw [← hkinds.1, String.toList_ofList]
    rwa [htext] at hlongest

end JsClass
