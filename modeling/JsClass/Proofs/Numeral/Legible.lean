import JsClass.Numeral.Basic
import JsClass.Token.Split

/-!
Which numeric literals have a value. A literal is read with any digits, but its value is made of
decimal digits only, and an integer in base ten must not be too long.
-/
namespace JsClass

variable {c : Char} {cs ds text rest whole places exp : List Char}

theorem splitWhile_all {p : Char → Bool} : ∀ x ∈ (splitWhile p cs).1, p x :=
  List.all_eq_true.1 List.all_takeWhile

namespace Text

theorem placeAfterZero_eq_some {zs : List Nat} {n d : Nat} (h : placeAfterZero zs n = some d) :
    ∃ z ∈ zs, n = z + d ∧ d < 10 := by
  induction zs with
  | nil => cases h
  | cons z zs ih =>
    rw [placeAfterZero] at h
    split at h
    · cases h
    · split at h
      · cases h
        exact ⟨z, List.mem_cons_self, by omega, by omega⟩
      · obtain ⟨z', hz', hn⟩ := ih h
        exact ⟨z', List.mem_cons_of_mem _ hz', hn⟩

theorem Ranges.exists_of_contains {r : Ranges} {n : Nat} (h : r.contains n) :
    ∃ x ∈ r, x.1 ≤ n ∧ n ≤ x.2 := by
  induction r with
  | nil => simp [Ranges.contains] at h
  | cons x r ih =>
    obtain ⟨lo, hi⟩ := x
    rw [Ranges.contains] at h
    split at h
    · cases h
    · next hle =>
      rcases Bool.or_eq_true_iff.1 h with hhi | hrest
      · exact ⟨_, List.mem_cons_self, Nat.le_of_not_lt hle, of_decide_eq_true hhi⟩
      · obtain ⟨x, hx, hn⟩ := ih hrest
        exact ⟨x, List.mem_cons_of_mem _ hx, hn⟩

theorem isDigit_cases (h : isDigit c) :
    (∃ z ∈ zeros, z ≤ c.toNat ∧ c.toNat < z + 10) ∨
      ∃ r ∈ otherDigitRanges, r.1 ≤ c.toNat ∧ c.toNat ≤ r.2 := by
  rcases Bool.or_eq_true_iff.1 h with hdecimal | hother
  · obtain ⟨d, hd⟩ := Option.isSome_iff_exists.1 hdecimal
    obtain ⟨z, hz, hn, hlt⟩ := placeAfterZero_eq_some hd
    exact Or.inl ⟨z, hz, by omega, by omega⟩
  · exact Or.inr (Ranges.exists_of_contains hother)

/-- The set has nothing from `lo` to `hi`. -/
def Ranges.avoids : Ranges → Nat → Nat → Bool
  | [], _, _ => true
  | (first, last) :: rest, lo, hi =>
    Nat.blt hi first || Nat.blt last lo && Ranges.avoids rest lo hi

theorem Ranges.contains_eq_false {ranges : Ranges} {lo hi n : Nat} (h : ranges.avoids lo hi)
    (hlo : lo ≤ n) (hhi : n ≤ hi) : ranges.contains n = false := by
  induction ranges with
  | nil => rfl
  | cons r rest ih =>
    obtain ⟨first, last⟩ := r
    simp only [avoids, Bool.or_eq_true, Bool.and_eq_true, Nat.blt_eq] at h
    rw [contains]
    rcases h with hbefore | ⟨hbehind, hrest⟩
    · rw [if_pos (Nat.lt_of_le_of_lt hhi hbefore)]
    · have hlast : ¬ n ≤ last := Nat.not_le.2 (Nat.lt_of_lt_of_le hbehind hlo)
      split
      · rfl
      · rw [ih hrest, Bool.or_false, decide_eq_false hlast]

/-- A set that keeps clear of the digits has none. -/
theorem isDigit_eq_false {ranges : Ranges} (hzeros : ∀ z ∈ zeros, ranges.avoids z (z + 9))
    (hothers : ∀ x ∈ otherDigitRanges, ranges.avoids x.1 x.2) (h : ranges.contains c.toNat) :
    isDigit c = false := by
  rw [Bool.eq_false_iff]
  intro hdigit
  rcases isDigit_cases hdigit with ⟨z, hz, hlo, hhi⟩ | ⟨x, hx, hlo, hhi⟩
  · cases h.symm.trans (Ranges.contains_eq_false (hzeros z hz) hlo (Nat.le_of_lt_succ hhi))
  · cases h.symm.trans (Ranges.contains_eq_false (hothers x hx) hlo hhi)

theorem isBlank_of_isDigit (h : isDigit c) : isBlank c = false := by
  rw [Bool.eq_false_iff]
  intro hblank
  cases h.symm.trans (isDigit_eq_false (by decide) (by decide) hblank)

end Text

namespace Numeral

/-! Characters that are no digits. -/

theorem isBlank_of_isPadding (h : isPadding c) : Text.isBlank c := by
  simp only [isPadding, Bool.or_eq_true, Bool.and_eq_true, decide_eq_true_eq, beq_iff_eq] at h
  rcases h with (⟨hlo, hhi⟩ | rfl) | ⟨-, hblank⟩
  · have hlo : 0x9 ≤ c.toNat := hlo
    have hhi : c.toNat ≤ 0xD := hhi
    have hnot : ¬ c.toNat < 0x9 := by omega
    simp [Text.isBlank, Text.blankRanges, Text.Ranges.contains, hnot, hhi]
  · decide
  · exact hblank

theorem isPadding_of_isDigit (h : Text.isDigit c) : isPadding c = false := by
  rw [Bool.eq_false_iff]
  intro hpad
  exact absurd (isBlank_of_isPadding hpad) (by simp [Text.isBlank_of_isDigit h])

theorem isDigit_of_isDecimalDigit (h : isDecimalDigit c) : Text.isDigit c :=
  Bool.or_eq_true_iff.2 (Or.inl h)

theorem trimPadding_eq (h : ∀ c ∈ cs, isPadding c = false) : trimPadding cs = cs := by
  have hdrop : ∀ xs : List Char, (∀ c ∈ xs, isPadding c = false) → xs.dropWhile isPadding = xs := by
    intro xs hxs
    cases xs with
    | nil => rfl
    | cons x xs => simp [hxs x]
  rw [trimPadding, hdrop cs h, hdrop cs.reverse (by simpa using h), List.reverse_reverse]

theorem dropUnderscores?_eq (h : '_' ∉ cs) : dropUnderscores? cs = some cs := by
  induction cs with
  | nil => rfl
  | cons c cs ih =>
    have hc : c ≠ '_' := fun he => h (by simp [he])
    have hrest := ih (fun hmem => h (List.mem_cons_of_mem _ hmem))
    rw [dropUnderscores?]
    · simp [hc, hrest]
    · rintro d rest rfl
      exact absurd h (by simp)

/-! Integers. -/

theorem isPadding_of_digitValue? {base : Nat} (h : (digitValue? base c).isSome) :
    isPadding c = false := by
  obtain ⟨d, hd⟩ := Option.isSome_iff_exists.1 h
  have hvalue := (Option.filter_eq_some_iff.1 hd).1
  cases hdecimal : Text.decimalValue? c with
  | some d => exact isPadding_of_isDigit (by simp [Text.isDigit, hdecimal])
  | none =>
    have hletter : 0x41 ≤ c.toNat ∧ c.toNat ≤ 0x7A := by
      simp only [alphanumericValue?, hdecimal] at hvalue
      split at hvalue
      · next hc =>
        simp only [Bool.and_eq_true, decide_eq_true_eq] at hc
        have hlo : 0x61 ≤ c.toNat := hc.1
        have hhi : c.toNat ≤ 0x7A := hc.2
        omega
      · split at hvalue
        · next hc =>
          simp only [Bool.and_eq_true, decide_eq_true_eq] at hc
          have hlo : 0x41 ≤ c.toNat := hc.1
          have hhi : c.toNat ≤ 0x5A := hc.2
          omega
        · cases hvalue
    rw [Bool.eq_false_iff]
    intro hp
    simp only [isPadding, Bool.or_eq_true, Bool.and_eq_true, decide_eq_true_eq, beq_iff_eq] at hp
    rcases hp with (⟨-, hc⟩ | rfl) | ⟨hc, -⟩
    · have hc : c.toNat ≤ 0xD := hc
      omega
    · have hc : (' ').toNat = 0x20 := rfl
      omega
    · omega

theorem digitValue?_underscore (base : Nat) : digitValue? base '_' = none := by
  have hnone : alphanumericValue? '_' = none := by decide
  simp [digitValue?, hnone]

theorem digitValue?_decimal (h : isDecimalDigit c) : (digitValue? 10 c).isSome := by
  obtain ⟨d, hd⟩ := Option.isSome_iff_exists.1 h
  obtain ⟨z, -, -, hlt⟩ := Text.placeAfterZero_eq_some hd
  simp [digitValue?, alphanumericValue?, hd, hlt]

theorem restValue?_isSome {base value : Nat} (h : ∀ c ∈ cs, (digitValue? base c).isSome) :
    (restValue? base value cs).isSome := by
  induction cs generalizing value with
  | nil => rfl
  | cons c cs ih =>
    have hc := h c List.mem_cons_self
    obtain ⟨d, hd⟩ := Option.isSome_iff_exists.1 hc
    rw [restValue?]
    · simp only [hd]
      exact ih fun x hx => h x (List.mem_cons_of_mem _ hx)
    · rintro d rest rfl rfl
      simp [digitValue?_underscore] at hc

theorem digitsValue?_isSome {base : Nat} (hne : cs ≠ [])
    (h : ∀ c ∈ cs, (digitValue? base c).isSome) : (digitsValue? base cs).isSome := by
  cases cs with
  | nil => exact absurd rfl hne
  | cons c cs =>
    obtain ⟨d, hd⟩ := Option.isSome_iff_exists.1 (h c List.mem_cons_self)
    simp only [digitsValue?, hd]
    exact restValue?_isSome fun x hx => h x (List.mem_cons_of_mem _ hx)

theorem dropMark_ten (cs : List Char) : dropMark 10 cs = cs := by
  unfold dropMark
  split
  · rw [if_neg]
    rintro hmark
    simp only [Bool.and_eq_true, decide_eq_true_eq, radixOfMark?] at hmark
    grind
  · rfl

theorem integer?_unsigned {base : Nat} (hpad : ∀ c ∈ cs, isPadding c = false)
    (hsign : ∀ c ∈ cs.head?, c ≠ '+' ∧ c ≠ '-') :
    integer? base cs = (natValue? base cs).map Int.ofNat := by
  rw [integer?, trimPadding_eq hpad]
  split
  · exact absurd rfl (hsign '+' rfl).1
  · exact absurd rfl (hsign '-' rfl).2
  · rfl

/-- Digits of all kinds are read as such, if there are not too many. -/
theorem integer?_digits (hall : ∀ c ∈ cs, Text.isDigit c) : integer? 10 cs =
    if cs.length ≤ maxDecimalDigits then (digitsValue? 10 cs).map Int.ofNat else none := by
  have hne : ∀ c ∈ cs, ∀ x, Text.isDigit x = false → c ≠ x := by
    rintro c hc _ hx rfl
    simp [hall c hc] at hx
  have hcount : cs.countP (· != '_') = cs.length :=
    List.countP_eq_length.2 fun c hc => bne_iff_ne.2 (hne c hc '_' (by decide))
  rw [integer?_unsigned fun c hc => isPadding_of_isDigit (hall c hc)]
  · simp only [natValue?, dropMark_ten, withinLimit, hcount, bne_self_eq_false, Bool.false_or,
      decide_eq_true_eq]
    split <;> rfl
  · intro c hc
    have hc := List.mem_of_mem_head? hc
    exact ⟨hne c hc '+' (by decide), hne c hc '-' (by decide)⟩

/-- Decimal digits have a value, if there are not too many. -/
theorem integer?_decimal (hne : cs ≠ []) (hall : ∀ c ∈ cs, isDecimalDigit c)
    (hlength : cs.length ≤ maxDecimalDigits) : (integer? 10 cs).isSome := by
  rw [integer?_digits fun c hc => isDigit_of_isDecimalDigit (hall c hc), if_pos hlength]
  simpa using digitsValue?_isSome hne fun c hc => digitValue?_decimal (hall c hc)

theorem radixOfMark?_cases {radix : Nat} (h : radixOfMark? c = some radix) :
    isPadding c = false ∧ radix ≠ 10 ∧ Text.isDigit c = false := by
  simp only [radixOfMark?, Bool.or_eq_true, beq_iff_eq] at h
  split at h
  · next hc =>
    cases h
    rcases hc with rfl | rfl <;> decide
  · split at h
    · next hc =>
      cases h
      rcases hc with rfl | rfl <;> decide
    · split at h
      · next hc =>
        cases h
        rcases hc with rfl | rfl <;> decide
      · cases h

/-- Digits behind a mark are read as such, however many there are. -/
theorem integer?_marked {radix : Nat} (hmark : radixOfMark? c = some radix)
    (hall : ∀ d ∈ ds, (digitValue? radix d).isSome) :
    integer? radix ('0' :: c :: ds) = (digitsValue? radix ds).map Int.ofNat := by
  obtain ⟨hpad, hten, -⟩ := radixOfMark?_cases hmark
  have hzero : isPadding '0' = false := by decide
  have hdrop : dropMark radix ('0' :: c :: ds) = ds := by
    have hvalue : Text.decimalValue? '0' = some 0 := by decide
    simp only [dropMark, hvalue, hmark, decide_true, Bool.and_self, if_true]
    split
    · next rest =>
      have := hall '_' List.mem_cons_self
      simp [digitValue?_underscore] at this
    · rfl
  rw [integer?_unsigned]
  · simp only [natValue?, hdrop, withinLimit, bne_iff_ne.2 hten, Bool.true_or, if_true]
  · intro d hd
    rcases List.mem_cons.1 hd with rfl | hd
    · exact hzero
    · rcases List.mem_cons.1 hd with rfl | hd
      · exact hpad
      · exact isPadding_of_digitValue? (hall d hd)
  · rintro _ ⟨⟩
    decide

/-! Decimals. -/

/-- A point and digits, or nothing. -/
inductive IsFraction (digit : Char → Bool) : List Char → Prop where
  | none : IsFraction digit []
  | point {ds : List Char} : (∀ d ∈ ds, digit d) → IsFraction digit ('.' :: ds)

/-- A mark, perhaps a sign, and digits, or nothing. -/
inductive IsExponent (digit : Char → Bool) : List Char → Prop where
  | none : IsExponent digit []
  | mark {mark : Char} {sign ds : List Char} : mark = 'e' ∨ mark = 'E' →
      sign = [] ∨ sign = ['+'] ∨ sign = ['-'] → ds ≠ [] → (∀ d ∈ ds, digit d) →
      IsExponent digit (mark :: (sign ++ ds))

theorem IsExponent.value (h : IsExponent isDecimalDigit exp) : (exponent? exp).isSome := by
  cases h with
  | none => rfl
  | @mark mark sign ds hmark hsign hne hall =>
    have hdigits : (!ds.isEmpty && ds.all isDecimalDigit) = true := by
      simpa [hne] using hall
    have hmark : (mark == 'e' || mark == 'E') = true := by simpa using hmark
    rcases hsign with rfl | rfl | rfl
    · simp only [exponent?, hmark, if_true, List.nil_append]
      split
      · exact absurd (hall '-' List.mem_cons_self) (by decide)
      · exact absurd (hall '+' List.mem_cons_self) (by decide)
      · simp [hdigits]
    · simp [exponent?, hmark, hdigits]
    · simp [exponent?, hmark, hdigits]

theorem takeWhile_decimal (rest : List Char) (hw : ∀ c ∈ whole, isDecimalDigit c)
    (hrest : ∀ c ∈ rest.head?, isDecimalDigit c = false) :
    (whole ++ rest).takeWhile isDecimalDigit = whole ∧
      (whole ++ rest).dropWhile isDecimalDigit = rest := by
  rw [List.takeWhile_append_of_pos hw, List.dropWhile_append_of_pos hw]
  cases rest with
  | nil => simp
  | cons c rest => simp [hrest c rfl]

theorem IsExponent.head {digit : Char → Bool} (h : IsExponent digit exp) :
    ∀ c ∈ exp.head?, isDecimalDigit c = false ∧ c ≠ '.' := by
  cases h with
  | none => simp
  | mark hmark =>
    rintro _ ⟨⟩
    rcases hmark with rfl | rfl <;> decide

theorem unsigned?_isSome {negative : Bool} (hw : ∀ c ∈ whole, isDecimalDigit c)
    (hp : IsFraction isDecimalDigit places) (he : IsExponent isDecimalDigit exp)
    (hne : whole ≠ [] ∨ 1 < places.length) :
    (unsigned? negative (whole ++ (places ++ exp))).isSome := by
  obtain ⟨value, hvalue⟩ := Option.isSome_iff_exists.1 he.value
  cases hp with
  | none =>
    obtain ⟨htake, hdrop⟩ := takeWhile_decimal exp hw fun c hc => (he.head c hc).1
    have hwhole : whole ≠ [] := by simpa using hne
    simp only [unsigned?, List.nil_append, htake, hdrop]
    split
    · exact absurd rfl (he.head '.' rfl).2
    · simp [hwhole, hvalue]
  | @point ds hds =>
    obtain ⟨htake, hdrop⟩ := takeWhile_decimal ('.' :: ds ++ exp) hw (by rintro _ ⟨⟩; decide)
    obtain ⟨htake', hdrop'⟩ := takeWhile_decimal exp hds fun c hc => (he.head c hc).1
    have hdigits : ¬ (whole = [] ∧ ds = []) := by
      rintro ⟨rfl, rfl⟩
      simp at hne
    simp only [unsigned?, htake, hdrop]
    simp [htake', hdrop', hvalue, hdigits]

/-- A decimal literal: digits, a fraction and an exponent, with a digit before the exponent. -/
structure IsDecimal (digit : Char → Bool) (text : List Char) : Prop where
  parts : ∃ whole places exp, text = whole ++ (places ++ exp) ∧ (∀ c ∈ whole, digit c) ∧
    IsFraction digit places ∧ IsExponent digit exp ∧ (whole ≠ [] ∨ 1 < places.length)

theorem IsDecimal.imp {digit digit' : Char → Bool} (h : IsDecimal digit text)
    (himp : ∀ c ∈ text, digit c → digit' c) : IsDecimal digit' text := by
  obtain ⟨whole, places, exp, rfl, hw, hp, he, hne⟩ := h.parts
  have hfraction : IsFraction digit' places := by
    cases hp with
    | none => exact .none
    | point hds => exact .point fun d hd => himp d (by simp [hd]) (hds d hd)
  have hexponent : IsExponent digit' exp := by
    cases he with
    | none => exact .none
    | mark hmark hsign hds hall =>
      exact .mark hmark hsign hds fun d hd => himp d (by simp [hd]) (hall d hd)
  exact ⟨whole, places, exp, rfl, fun c hc => himp c (by simp [hc]) (hw c hc), hfraction, hexponent,
    hne⟩

theorem IsDecimal.chars {digit : Char → Bool} (h : IsDecimal digit text) :
    ∀ c ∈ text, digit c ∨ c ∈ ['.', 'e', 'E', '+', '-'] := by
  obtain ⟨whole, places, exp, rfl, hw, hp, he, -⟩ := h.parts
  intro c hc
  rcases List.mem_append.1 hc with hc | hc
  · exact Or.inl (hw c hc)
  rcases List.mem_append.1 hc with hc | hc
  · cases hp with
    | none => simp at hc
    | point hds =>
      rcases List.mem_cons.1 hc with rfl | hc
      · exact Or.inr (by decide)
      · exact Or.inl (hds c hc)
  · cases he with
    | none => simp at hc
    | @mark mark sign ds hmark hsign _ hds =>
      rcases List.mem_cons.1 hc with rfl | hc
      · exact Or.inr (by rcases hmark with rfl | rfl <;> decide)
      rcases List.mem_append.1 hc with hc | hc
      · refine Or.inr ?_
        rcases hsign with rfl | rfl | rfl <;> simp_all
      · exact Or.inl (hds c hc)

/-- A literal has no sign. -/
theorem IsDecimal.head (h : IsDecimal Text.isDigit text) :
    ∀ c ∈ text.head?, c ≠ '+' ∧ c ≠ '-' := by
  have hdigit : ∀ c, Text.isDigit c → c ≠ '+' ∧ c ≠ '-' := by
    intro c hc
    constructor <;> rintro rfl <;> revert hc <;> decide
  obtain ⟨whole, places, exp, rfl, hw, hp, -, hne⟩ := h.parts
  intro c hc
  cases whole with
  | cons d whole =>
    cases hc
    exact hdigit c (hw c List.mem_cons_self)
  | nil =>
    cases hp with
    | none => simp at hne
    | point hds =>
      cases hc
      decide

/-- A literal needs no trimming, and has no sign to read. -/
theorem float?_unsigned (h : IsDecimal Text.isDigit text) :
    float? text = unsigned? false text := by
  have hother : ['.', 'e', 'E', '+', '-'].all (!isPadding ·) := by decide
  have hpad : ∀ c ∈ text, isPadding c = false := by
    intro c hc
    rcases h.chars c hc with hd | hd
    · exact isPadding_of_isDigit hd
    · simpa using List.all_eq_true.1 hother c hd
  have hunderscore : '_' ∉ text := by
    intro hmem
    rcases h.chars _ hmem with hd | hd <;> revert hd <;> decide
  rw [float?, trimPadding_eq hpad, dropUnderscores?_eq hunderscore, Option.bind_eq_bind,
    Option.bind_some]
  split
  · exact absurd rfl (h.head '+' rfl).1
  · exact absurd rfl (h.head '-' rfl).2
  · rfl

theorem IsDecimal.anyDigits (h : IsDecimal isDecimalDigit text) : IsDecimal Text.isDigit text :=
  h.imp fun _ _ => isDigit_of_isDecimalDigit

theorem float?_isSome (h : IsDecimal isDecimalDigit text) : (float? text).isSome := by
  rw [float?_unsigned h.anyDigits]
  obtain ⟨whole, places, exp, rfl, hw, hp, he, hne⟩ := h.parts
  exact unsigned?_isSome hw hp he hne

theorem IsDecimal.markedRadix? (h : IsDecimal Text.isDigit text) : markedRadix? text = none := by
  have hother : ['.', 'e', 'E', '+', '-'].all (radixOfMark? · == none) := by decide
  unfold Numeral.markedRadix?
  split
  · next mark rest =>
    rcases h.chars mark (by simp) with hd | hd
    · cases hr : radixOfMark? mark with
      | none => rfl
      | some radix => simp [(radixOfMark?_cases hr).2.2] at hd
    · simpa using List.all_eq_true.1 hother mark hd
  · rfl

/-- Without a point and a mark there are only digits. -/
theorem IsDecimal.digits {digit : Char → Bool} (h : IsDecimal digit text)
    (hplain : ¬ text.any fun c => c == '.' || c == 'e' || c == 'E') :
    text ≠ [] ∧ ∀ c ∈ text, digit c := by
  obtain ⟨whole, places, exp, rfl, hw, hp, he, hne⟩ := h.parts
  cases hp with
  | point hds => simp at hplain
  | none =>
    cases he with
    | mark hmark => rcases hmark with rfl | rfl <;> simp at hplain
    | none =>
      have hwhole : whole ≠ [] := by simpa using hne
      simpa using ⟨hwhole, hw⟩

/-- A decimal literal with decimal digits has a value, unless it is a whole number of too many
digits. -/
theorem ofText?_decimal (h : IsDecimal isDecimalDigit text)
    (hlength : (∀ c ∈ text, isDecimalDigit c) → text.length ≤ maxDecimalDigits) :
    (ofText? (.ofList text)).isSome := by
  simp only [ofText?, String.toList_ofList, h.anyDigits.markedRadix?]
  split
  · simpa using float?_isSome h
  · next hplain =>
    obtain ⟨hne, hall⟩ := h.digits hplain
    simpa using integer?_decimal hne hall (hlength hall)

theorem ofText?_radix {radix : Nat} (hmark : radixOfMark? c = some radix) (hne : ds ≠ [])
    (hall : ∀ d ∈ ds, (digitValue? radix d).isSome) :
    (ofText? (.ofList ('0' :: c :: ds))).isSome := by
  simpa [ofText?, Numeral.markedRadix?, hmark, integer?_marked hmark hall] using
    digitsValue?_isSome hne hall

end Numeral

/-! Literals as they are scanned. -/

namespace NumberLiteral

open Numeral

theorem fraction_isFraction (cs : List Char) : IsFraction Text.isDigit (fraction cs).1 := by
  unfold fraction
  split
  · exact .point splitWhile_all
  · exact .none

theorem sign_cases (cs : List Char) :
    (sign cs).1 = [] ∨ (sign cs).1 = ['+'] ∨ (sign cs).1 = ['-'] := by
  unfold sign
  split <;> simp

theorem exponent_isExponent (h : exponent cs = .ok (text, rest)) :
    IsExponent Text.isDigit text := by
  rcases exponent_eq_ok.1 h with ⟨-, rfl, -⟩ | ⟨mark, behind, -, hmark, hne, rfl, -⟩
  · exact .none
  · exact .mark hmark (sign_cases behind) hne splitWhile_all

/-- A literal that starts as one should has a digit before its exponent. -/
theorem digits_of_starts (hs : starts cs) : (splitWhile Text.isDigit cs).1 ≠ [] ∨
    1 < (fraction (splitWhile Text.isDigit cs).2).1.length := by
  unfold starts at hs
  split at hs
  · cases hs
  · next rest =>
    right
    have hpoint : Text.isDigit '.' = false := by decide
    cases rest with
    | nil => simp at hs
    | cons d rest =>
      have hd : Text.isDigit d := by simpa using hs
      simp [splitWhile, fraction, hpoint, hd]
  · left
    simp [splitWhile, hs]

theorem decimal_isDecimal (hs : starts cs) (h : decimal cs = .ok (text, rest)) :
    IsDecimal Text.isDigit text := by
  obtain ⟨exp, he, rfl⟩ := decimal_eq_ok.1 h
  exact ⟨_, _, exp, rfl, splitWhile_all, fraction_isFraction _, exponent_isExponent he,
    digits_of_starts hs⟩

/-- A literal with a radix mark. -/
def IsMarked (text : List Char) : Prop := ∃ radix mark ds, radixOfMark? mark = some radix ∧
  ds ≠ [] ∧ (∀ d ∈ ds, (digitValue? radix d).isSome) ∧ text = '0' :: mark :: ds

theorem radixDigits_isMarked {radix : Nat} (hc : radixOfMark? c = some radix)
    (h : radixDigits radix c cs = .ok (text, rest)) : IsMarked text := by
  obtain ⟨hne, rfl, -⟩ := radixDigits_eq_ok.1 h
  refine ⟨radix, c, _, hc, hne, fun d hd => ?_, rfl⟩
  exact (Bool.and_eq_true_iff.1 (splitWhile_all d hd)).2

/-- A literal has a radix mark, or it is a decimal. -/
theorem scan_cases (hs : starts cs) (h : scan cs = .ok (text, rest)) :
    IsMarked text ∨ IsDecimal Text.isDigit text := by
  rcases unchecked_eq_ok (scan_eq_ok.1 h).1 with ⟨radix, mark, behind, -, hradix, h⟩ | ⟨-, h⟩
  · exact Or.inl (radixDigits_isMarked hradix h)
  · exact Or.inr (decimal_isDecimal hs h)

/-- What is scanned as a number has a value, if its digits are decimal and not too many. -/
theorem ofText?_of_scan (hs : starts cs) (h : scan cs = .ok (text, rest))
    (hdigit : ∀ c ∈ text, Text.isDigit c → isDecimalDigit c)
    (hlength : (∀ c ∈ text, isDecimalDigit c) → text.length ≤ maxDecimalDigits) :
    (ofText? (.ofList text)).isSome := by
  rcases scan_cases hs h with ⟨radix, mark, ds, hmark, hne, hall, rfl⟩ | hdecimal
  · exact ofText?_radix hmark hne hall
  · exact ofText?_decimal (hdecimal.imp hdigit) hlength

end NumberLiteral

end JsClass
