import Mathlib.Data.List.Forall2
import Mathlib.Data.Nat.Digits.Defs
import JsClass.Proofs.Numeral.Legible

/-!
What the readers of integers and decimals make of a text. The integer reader gives the number that
the digits stand for, and nothing if one of the characters is no digit; the decimal reader gives
nothing if there is a digit without a decimal value.
-/
namespace JsClass.Numeral

variable {c : Char} {base n value : Nat} {digit digit' : Char → Nat → Prop}
  {cs text : List Char}

/-- One character or more are digits, and `n` is their number in a base. -/
structure Denotes (digit : Char → Nat → Prop) (base : Nat) (cs : List Char) (n : Nat) : Prop where
  nonempty : cs ≠ []
  places : ∃ ds, List.Forall₂ digit cs ds ∧ Nat.ofDigits base ds.reverse = n

theorem Denotes.imp (h : Denotes digit base cs n)
    (himp : ∀ c ∈ cs, ∀ d, digit c d → digit' c d) : Denotes digit' base cs n := by
  obtain ⟨ds, hds, hn⟩ := h.places
  have hboth := (List.forall₂_and_left cs ds).2 ⟨himp, hds⟩
  exact ⟨h.nonempty, ds, hboth.imp fun _ d hd => hd.1 d hd.2, hn⟩

theorem Denotes.exists_digit (h : Denotes digit base cs n) : ∀ c ∈ cs, ∃ d, digit c d := by
  obtain ⟨ds, hds, -⟩ := h.places
  have hboth : List.Forall₂ (fun c d => (∃ d, digit c d) ∧ digit c d) cs ds :=
    hds.imp fun _ d hd => ⟨⟨d, hd⟩, hd⟩
  exact ((List.forall₂_and_left cs ds).1 hboth).1

/-! Integers. -/

/-- Digits behind the number `value` are added one by one. -/
theorem restValue?_eq_some (hcs : '_' ∉ cs) : restValue? base value cs = some n ↔
    ∃ ds, List.Forall₂ (fun c d => digitValue? base c = some d) cs ds ∧
      ds.foldl (fun m d => m * base + d) value = n := by
  induction cs generalizing value with
  | nil => simp [restValue?]
  | cons c cs ih =>
    have hrest : '_' ∉ cs := fun hmem => hcs (List.mem_cons_of_mem _ hmem)
    rw [restValue?]
    · simp only [Option.bind_eq_bind, Option.bind_eq_some_iff, ih hrest]
      constructor
      · rintro ⟨d, hd, ds, hds, hn⟩
        exact ⟨d :: ds, .cons hd hds, hn⟩
      · rintro ⟨_, ⟨⟩ | ⟨hd, hds⟩, hn⟩
        exact ⟨_, hd, _, hds, hn⟩
    · rintro d rest rfl rfl
      exact hcs List.mem_cons_self

theorem digitsValue?_eq_some (hcs : '_' ∉ cs) : digitsValue? base cs = some n ↔
    Denotes (fun c d => digitValue? base c = some d) base cs n := by
  have hfold : ∀ ds : List Nat,
      Nat.ofDigits base ds.reverse = ds.foldl (fun m d => m * base + d) 0 := by
    intro ds
    simp [Nat.ofDigits_eq_foldr, List.foldr_reverse, Nat.add_comm, Nat.mul_comm]
  cases cs with
  | nil =>
    constructor
    · rintro ⟨⟩
    · exact fun h => absurd rfl h.nonempty
  | cons c cs =>
    have hrest : '_' ∉ cs := fun hmem => hcs (List.mem_cons_of_mem _ hmem)
    simp only [digitsValue?, Option.bind_eq_bind, Option.bind_eq_some_iff, restValue?_eq_some hrest]
    constructor
    · rintro ⟨d, hd, ds, hds, hn⟩
      refine ⟨List.cons_ne_nil _ _, d :: ds, .cons hd hds, ?_⟩
      rw [hfold]
      simpa using hn
    · rintro ⟨-, _, ⟨⟩ | ⟨hd, hds⟩, hn⟩
      rw [hfold] at hn
      exact ⟨_, hd, _, hds, by simpa using hn⟩

theorem digitValue?_ten : digitValue? 10 c = Text.decimalValue? c := by
  cases hd : Text.decimalValue? c with
  | some d =>
    obtain ⟨z, -, -, hlt⟩ := Text.placeAfterZero_eq_some hd
    simp [digitValue?, alphanumericValue?, hd, hlt]
  | none =>
    -- the value of a letter is at least ten
    simp only [digitValue?, alphanumericValue?, hd]
    split
    · simp
    · split <;> simp

/-- Digits of all kinds denote a number if they are decimal. -/
theorem digitsValue?_ten (hall : ∀ c ∈ cs, Text.isDigit c) : digitsValue? 10 cs = some n ↔
    Denotes (fun c d => Text.decimalValue? c = some d) 10 cs n := by
  have hunderscore : '_' ∉ cs := fun hmem => absurd (hall _ hmem) (by decide)
  rw [digitsValue?_eq_some hunderscore]
  simp only [digitValue?_ten]

/-! Decimals. -/

/-- A decimal digit, or one of the marks in a decimal. -/
def IsDecimalChar (c : Char) : Prop := isDecimalDigit c ∨ c ∈ ['.', 'e', 'E', '+', '-']

theorem exponent?_chars {exp : Int} (h : exponent? cs = some exp) :
    ∀ c ∈ cs, IsDecimalChar c := by
  cases cs with
  | nil => simp
  | cons mark rest =>
    have hmark : mark = 'e' ∨ mark = 'E' := by
      simp only [exponent?] at h
      split at h
      · next hmark => simpa using hmark
      · cases h
    have hbeq : (mark == 'e' || mark == 'E') = true := by simpa using hmark
    have hdigits : ∀ {ds : List Char} {v : Int},
        (if !ds.isEmpty && ds.all isDecimalDigit then some v else none) = some exp →
          ∀ d ∈ ds, IsDecimalChar d := by
      intro ds v hv d hd
      split at hv
      · next hds => exact Or.inl (List.all_eq_true.1 (Bool.and_eq_true_iff.1 hds).2 d hd)
      · cases hv
    refine List.forall_mem_cons.2 ⟨Or.inr (by rcases hmark with rfl | rfl <;> decide), ?_⟩
    simp only [exponent?, hbeq, if_true] at h
    split at h
    · exact List.forall_mem_cons.2 ⟨Or.inr (by decide), hdigits h⟩
    · exact List.forall_mem_cons.2 ⟨Or.inr (by decide), hdigits h⟩
    · exact hdigits h

theorem forall_mem_run {P : Char → Prop} {p : Char → Bool} (hrun : ∀ c, p c → P c)
    (hrest : ∀ c ∈ cs.dropWhile p, P c) : ∀ c ∈ cs, P c := by
  intro c hc
  rw [← List.takeWhile_append_dropWhile (p := p) (l := cs)] at hc
  rcases List.mem_append.1 hc with hc | hc
  · exact hrun c (List.all_eq_true.1 List.all_takeWhile c hc)
  · exact hrest c hc

/-- A decimal that can be read has no other characters. -/
theorem unsigned?_chars {negative : Bool} {x : Binary64} (h : unsigned? negative cs = some x) :
    ∀ c ∈ cs, IsDecimalChar c := by
  refine forall_mem_run (fun c => Or.inl) ?_
  simp only [unsigned?, Option.bind_eq_bind] at h
  split at h
  · next rest heq =>
    rw [heq]
    refine List.forall_mem_cons.2 ⟨Or.inr (by decide), forall_mem_run (fun c => Or.inl) ?_⟩
    split at h
    · cases h
    · obtain ⟨exp, hexp, -⟩ := Option.bind_eq_some_iff.1 h
      exact exponent?_chars hexp
  · split at h
    · cases h
    · obtain ⟨exp, hexp, -⟩ := Option.bind_eq_some_iff.1 h
      exact exponent?_chars hexp

/-- What a literal has as a decimal value depends on its digits only. -/
theorem float?_eq_none (h : IsDecimal Text.isDigit text) : float? text = none ↔
    ∃ c ∈ text, Text.isDigit c ∧ Text.decimalValue? c = none := by
  have hmarks : ['.', 'e', 'E', '+', '-'].all (!Text.isDigit ·) := by decide
  constructor
  · intro hnone
    by_contra hgood
    push Not at hgood
    have hdecimal : IsDecimal isDecimalDigit text := h.imp fun c hc hdigit =>
      Option.isSome_iff_ne_none.2 (hgood c hc hdigit)
    simpa [hnone] using float?_isSome hdecimal
  · rintro ⟨c, hc, hdigit, hvalue⟩
    rw [float?_unsigned h, Option.eq_none_iff_forall_not_mem]
    intro x hx
    rcases unsigned?_chars hx c hc with hdecimal | hmark
    · simp [isDecimalDigit, hvalue] at hdecimal
    · simpa [hdigit] using List.all_eq_true.1 hmarks c hmark

end JsClass.Numeral
