import JsClass.Token.Stream

/-!
Nothing is lost in scanning: what a scanner read and what it left are the text it was given, and
a piece takes a character at least. So the bounds that the scanners count down never run out
before the text does.
-/
namespace JsClass

namespace Trivia

theorem lineComment_split (cs : List Char) :
    (lineComment cs).1 ++ (lineComment cs).2 = cs := splitWhile_append _ cs

theorem blockComment?_split {cs body rest : List Char}
    (h : blockComment? cs = some (body, rest)) : body ++ rest = cs := by
  fun_induction blockComment? cs generalizing body rest with
  | case1 => simp at h
  | case2 r =>
    simp only [Option.some.injEq, Prod.mk.injEq] at h
    obtain ⟨rfl, rfl⟩ := h
    rfl
  | case3 c cs _ ih =>
    obtain ⟨⟨b, r⟩, hb, he⟩ := Option.map_eq_some_iff.1 h
    simp only [Prod.mk.injEq] at he
    obtain ⟨rfl, rfl⟩ := he
    simp [ih hb]

end Trivia

namespace Trie

variable {α : Type}

theorem longest_split {t : Trie α} {cs word rest : List Char} {a : α}
    (h : t.longest cs = some (a, word, rest)) : word ++ rest = cs ∧ word ≠ [] := by
  induction cs generalizing t word rest a with
  | nil => simp [longest] at h
  | cons c cs ih =>
    rw [longest] at h
    split at h
    · simp at h
    · next u _ =>
      split at h
      · next b w r hu =>
        simp only [Option.some.injEq, Prod.mk.injEq] at h
        obtain ⟨rfl, rfl, rfl⟩ := h
        simp [(ih hu).1]
      · obtain ⟨b, _, he⟩ := Option.map_eq_some_iff.1 h
        simp only [Prod.mk.injEq] at he
        obtain ⟨rfl, rfl, rfl⟩ := he
        simp

end Trie

namespace NumberLiteral

theorem fraction_split (cs : List Char) : (fraction cs).1 ++ (fraction cs).2 = cs := by
  unfold fraction
  split
  · simp [splitWhile_append]
  · rfl

theorem sign_split (cs : List Char) : (sign cs).1 ++ (sign cs).2 = cs := by
  unfold sign
  split <;> rfl

/-- An exponent is missing, or it is a mark, perhaps a sign, and digits. -/
theorem exponent_eq_ok {cs text rest : List Char} : exponent cs = .ok (text, rest) ↔
    (∀ c ∈ cs.head?, c ≠ 'e' ∧ c ≠ 'E') ∧ text = [] ∧ rest = cs ∨
    ∃ mark behind, cs = mark :: behind ∧ (mark = 'e' ∨ mark = 'E') ∧
      (splitWhile Text.isDigit (sign behind).2).1 ≠ [] ∧
      text = mark :: (sign behind).1 ++ (splitWhile Text.isDigit (sign behind).2).1 ∧
      rest = (splitWhile Text.isDigit (sign behind).2).2 := by
  constructor
  · intro h
    unfold exponent at h
    split at h
    · cases h
      exact Or.inl ⟨by simp, rfl, rfl⟩
    · next mark behind =>
      split at h
      · next hmark =>
        simp only at h
        split at h
        · cases h
        · next hne =>
          cases h
          exact Or.inr ⟨mark, behind, rfl, by simpa using hmark, by simpa using hne, rfl, rfl⟩
      · next hmark =>
        cases h
        exact Or.inl ⟨by simpa using hmark, rfl, rfl⟩
  · rintro (⟨hhead, rfl, rfl⟩ | ⟨mark, behind, rfl, hmark, hne, rfl, rfl⟩)
    · cases rest with
      | nil => rfl
      | cons mark behind => simp [exponent, hhead mark rfl]
    · have hmark : (mark == 'e' || mark == 'E') = true := by simpa using hmark
      simp [exponent, hmark, hne]

theorem decimal_eq_ok {cs text rest : List Char} : decimal cs = .ok (text, rest) ↔
    ∃ exp, exponent (fraction (splitWhile Text.isDigit cs).2).2 = .ok (exp, rest) ∧
      text = (splitWhile Text.isDigit cs).1 ++
        ((fraction (splitWhile Text.isDigit cs).2).1 ++ exp) := by
  simp only [decimal]
  cases he : exponent (fraction (splitWhile Text.isDigit cs).2).2 with
  | error e => simp [bind, Except.bind]
  | ok r =>
    obtain ⟨exp, behind⟩ := r
    simp only [bind, Except.bind, pure, Except.pure, Except.ok.injEq, Prod.mk.injEq]
    constructor
    · rintro ⟨rfl, rfl⟩
      exact ⟨exp, ⟨rfl, rfl⟩, List.append_assoc ..⟩
    · rintro ⟨_, ⟨rfl, rfl⟩, rfl⟩
      exact ⟨List.append_assoc .., rfl⟩

theorem radixDigits_eq_ok {radix : Nat} {mark : Char} {cs text rest : List Char} :
    radixDigits radix mark cs = .ok (text, rest) ↔
      (splitWhile (isRadixDigit radix) cs).1 ≠ [] ∧
      text = '0' :: mark :: (splitWhile (isRadixDigit radix) cs).1 ∧
      rest = (splitWhile (isRadixDigit radix) cs).2 := by
  simp only [radixDigits]
  cases hds : (splitWhile (isRadixDigit radix) cs).1 with
  | nil => simp
  | cons d ds => simp [eq_comm]

theorem unchecked_marked {radix : Nat} {mark : Char} {cs : List Char}
    (hmark : Numeral.radixOfMark? mark = some radix) :
    unchecked ('0' :: mark :: cs) = radixDigits radix mark cs := by
  simp [unchecked, hmark]

theorem unchecked_decimal {cs : List Char}
    (h : ∀ mark rest radix, cs = '0' :: mark :: rest → Numeral.radixOfMark? mark ≠ some radix) :
    unchecked cs = decimal cs := by
  unfold unchecked
  split
  · next mark rest =>
    split
    · next radix hmark => exact absurd hmark (h mark rest radix rfl)
    · rfl
  · rfl

/-- A literal has the digits of a radix behind a zero and its mark, or it is a decimal. -/
theorem unchecked_eq_ok {cs text rest : List Char} (h : unchecked cs = .ok (text, rest)) :
    (∃ radix mark behind, cs = '0' :: mark :: behind ∧ Numeral.radixOfMark? mark = some radix ∧
      radixDigits radix mark behind = .ok (text, rest)) ∨
    (∀ mark behind radix, cs = '0' :: mark :: behind → Numeral.radixOfMark? mark ≠ some radix) ∧
      decimal cs = .ok (text, rest) := by
  by_cases hmark : ∃ mark behind radix,
      cs = '0' :: mark :: behind ∧ Numeral.radixOfMark? mark = some radix
  · obtain ⟨mark, behind, radix, rfl, hmark⟩ := hmark
    rw [unchecked_marked hmark] at h
    exact Or.inl ⟨radix, mark, behind, rfl, hmark, h⟩
  · have hplain : ∀ mark behind radix,
        cs = '0' :: mark :: behind → Numeral.radixOfMark? mark ≠ some radix :=
      fun mark behind radix hcs hradix => hmark ⟨mark, behind, radix, hcs, hradix⟩
    rw [unchecked_decimal hplain] at h
    exact Or.inr ⟨hplain, h⟩

theorem scan_eq_ok {cs text rest : List Char} : scan cs = .ok (text, rest) ↔
    unchecked cs = .ok (text, rest) ∧ ∀ c ∈ rest.head?, isIdentifierStart c = false := by
  simp only [scan]
  cases hu : unchecked cs with
  | error e => simp [bind, Except.bind]
  | ok r =>
    obtain ⟨t, behind⟩ := r
    by_cases hstart : behind.head?.any isIdentifierStart = true
    · obtain ⟨c, hc, hc'⟩ := (Option.any_eq_true _ _).1 hstart
      simp only [bind, Except.bind, hstart, if_true, Except.ok.injEq, Prod.mk.injEq,
        reduceCtorEq, false_iff]
      rintro ⟨⟨rfl, rfl⟩, hend⟩
      simp [hend c hc] at hc'
    · have hend := (Option.any_eq_false _ _).1 (Bool.eq_false_iff.2 hstart)
      simp only [bind, Except.bind, hstart, Bool.false_eq_true, if_false, pure, Except.pure,
        Except.ok.injEq, Prod.mk.injEq, iff_self_and]
      rintro ⟨rfl, rfl⟩
      exact hend

theorem exponent_split {cs text rest : List Char} (h : exponent cs = .ok (text, rest)) :
    text ++ rest = cs := by
  rcases exponent_eq_ok.1 h with ⟨-, rfl, rfl⟩ | ⟨mark, behind, rfl, -, -, rfl, rfl⟩
  · rfl
  · rw [List.cons_append, List.cons_append, List.append_assoc, splitWhile_append, sign_split]

theorem decimal_split {cs text rest : List Char} (h : decimal cs = .ok (text, rest)) :
    text ++ rest = cs := by
  obtain ⟨exp, he, rfl⟩ := decimal_eq_ok.1 h
  rw [List.append_assoc, List.append_assoc, exponent_split he, fraction_split, splitWhile_append]

theorem radixDigits_split {radix : Nat} {mark : Char} {cs text rest : List Char}
    (h : radixDigits radix mark cs = .ok (text, rest)) : text ++ rest = '0' :: mark :: cs := by
  obtain ⟨-, rfl, rfl⟩ := radixDigits_eq_ok.1 h
  simp [splitWhile_append]

theorem scan_split {cs text rest : List Char} (h : scan cs = .ok (text, rest)) :
    text ++ rest = cs := by
  rcases unchecked_eq_ok (scan_eq_ok.1 h).1 with ⟨_, _, _, rfl, -, hradix⟩ | ⟨-, hdecimal⟩
  · exact radixDigits_split hradix
  · exact decimal_split hdecimal

theorem decimal_ne_nil {cs text rest : List Char} (hs : starts cs)
    (h : decimal cs = .ok (text, rest)) : text ≠ [] := by
  obtain ⟨exp, -, rfl⟩ := decimal_eq_ok.1 h
  unfold starts at hs
  split at hs
  · simp at hs
  · simp [splitWhile, fraction, show Text.isDigit '.' = false by decide]
  · next c cs _ => simp [splitWhile, hs]

/-- A literal that starts as one should is not empty. -/
theorem scan_ne_nil {cs text rest : List Char} (hs : starts cs) (h : scan cs = .ok (text, rest)) :
    text ≠ [] := by
  rcases unchecked_eq_ok (scan_eq_ok.1 h).1 with ⟨_, _, _, -, -, hradix⟩ | ⟨-, hdecimal⟩
  · obtain ⟨-, rfl, -⟩ := radixDigits_eq_ok.1 hradix
    simp
  · exact decimal_ne_nil hs hdecimal

end NumberLiteral

namespace StringLiteral

theorem hexDigits?_split {length value n : Nat} {cs digits rest : List Char}
    (h : hexDigits? length value cs = some (n, digits, rest)) : digits ++ rest = cs := by
  induction length generalizing value n cs digits rest with
  | zero =>
    simp only [hexDigits?, Option.some.injEq, Prod.mk.injEq] at h
    obtain ⟨_, rfl, rfl⟩ := h
    rfl
  | succ length ih =>
    cases cs with
    | nil => simp [hexDigits?] at h
    | cons c cs =>
      simp only [hexDigits?, Option.bind_eq_bind, Option.bind_eq_some_iff, Option.pure_def,
        Option.some.injEq, Prod.mk.injEq] at h
      obtain ⟨_, _, ⟨m, ds, r⟩, hr, _, rfl, rfl⟩ := h
      simp [ih hr]

/-- A segment and what it leaves make up the text it was read from. -/
def Segment.Splits (s : Segment) (cs : List Char) : Prop := s.spelling ++ s.rest = cs

theorem codePoint_cases {n : Nat} {s : Segment} {spelling rest : List Char}
    (h : (do let p ← codePoint n; return ⟨spelling, [p], rest⟩ : Except LexicalFault Segment)
      = .ok s) : s.spelling = spelling ∧ s.rest = rest := by
  cases hp : codePoint n with
  | error e => simp [hp, bind, Except.bind] at h
  | ok p =>
    simp only [hp, bind, Except.bind, pure, Except.pure, Except.ok.injEq] at h
    simp [← h]

theorem fixedEscape_splits {letter : Char} {length : Nat} {cs : List Char} {s : Segment}
    (h : fixedEscape letter length cs = .ok s) : s.Splits (letter :: cs) := by
  unfold fixedEscape at h
  split at h
  · simp at h
  · next hd =>
    obtain ⟨hs, hr⟩ := codePoint_cases h
    simp [Segment.Splits, hs, hr, hexDigits?_split hd]

theorem bracedEscape_splits {cs : List Char} {s : Segment} (h : bracedEscape cs = .ok s) :
    s.Splits ('u' :: '\x7b' :: cs) := by
  unfold bracedEscape at h
  split at h
  · simp at h
  · simp at h
  · next body brace rest _ hs =>
    split at h
    · simp at h
    · obtain ⟨hp, hr⟩ := codePoint_cases h
      have := splitWhile_append (· != '\x7d') cs
      rw [hs] at this
      simp [Segment.Splits, hp, hr, ← this]
    · simp at h

theorem escape_splits {cs : List Char} {s : Segment} (h : escape cs = .ok s) : s.Splits cs := by
  unfold escape at h
  split at h
  · simp at h
  · exact fixedEscape_splits h
  · exact bracedEscape_splits h
  · exact fixedEscape_splits h
  · simp only [Except.ok.injEq] at h
    subst h
    rfl
  · split at h
    · simp only [Except.ok.injEq] at h
      subst h
      rfl
    · split at h
      · simp only [Except.ok.injEq] at h
        subst h
        rfl
      · split at h
        · simp only [Except.ok.injEq] at h
          subst h
          rfl
        · split at h
          · simp at h
          · simp only [Except.ok.injEq] at h
            subst h
            rfl

/-- A literal goes on with its closing quote, an escape or a plain character. -/
theorem body_cons_ok {quote : Char} {fuel : Nat} {c : Char} {cs : List Char} {s : Segment}
    (h : body quote (fuel + 1) (c :: cs) = .ok s) :
    (c = quote ∧ s = ⟨[quote], [], cs⟩) ∨
    (c = '\\' ∧ ∃ e r, escape cs = .ok e ∧ body quote fuel e.rest = .ok r ∧
      s = ⟨c :: e.spelling ++ r.spelling, e.value ++ r.value, r.rest⟩) ∨
    (c ≠ quote ∧ c ≠ '\\' ∧ Text.isLineEnd c = false ∧ ∃ r, body quote fuel cs = .ok r ∧
      s = ⟨c :: r.spelling, .ofChar c :: r.value, r.rest⟩) := by
  rw [body] at h
  split at h
  · next hquote =>
    obtain rfl := beq_iff_eq.1 hquote
    cases h
    exact Or.inl ⟨rfl, rfl⟩
  · next hquote =>
    split at h
    · next hescape =>
      cases he : escape cs with
      | error e => simp [he, bind, Except.bind] at h
      | ok e =>
        cases hb : body quote fuel e.rest with
        | error e' => simp [he, hb, bind, Except.bind] at h
        | ok r =>
          simp only [he, hb, bind, Except.bind, pure, Except.pure, Except.ok.injEq] at h
          exact Or.inr (Or.inl ⟨beq_iff_eq.1 hescape, e, r, rfl, hb, h.symm⟩)
    · next hescape =>
      split at h
      · cases h
      · next hend =>
        cases hb : body quote fuel cs with
        | error e' => simp [hb, bind, Except.bind] at h
        | ok r =>
          simp only [hb, bind, Except.bind, pure, Except.pure, Except.ok.injEq] at h
          rw [beq_iff_eq] at hquote hescape
          exact Or.inr (Or.inr ⟨hquote, hescape, Bool.eq_false_iff.2 hend, r, rfl, h.symm⟩)

theorem body_splits {quote : Char} {fuel : Nat} {cs : List Char} {s : Segment}
    (h : body quote fuel cs = .ok s) : s.Splits cs := by
  induction fuel generalizing cs s with
  | zero => simp [body] at h
  | succ fuel ih =>
    cases cs with
    | nil => simp [body] at h
    | cons c cs =>
      rcases body_cons_ok h with ⟨rfl, rfl⟩ | ⟨-, e, r, he, hr, rfl⟩ | ⟨-, -, -, r, hr, rfl⟩
      · rfl
      · have hescape : e.spelling ++ e.rest = cs := escape_splits he
        have hlater : r.spelling ++ r.rest = e.rest := ih hr
        simp [Segment.Splits, ← hescape, ← hlater]
      · have hlater : r.spelling ++ r.rest = cs := ih hr
        simp [Segment.Splits, ← hlater]

theorem scan_eq_ok {quote : Char} {cs : List Char} {s : Segment} : scan quote cs = .ok s ↔
    ∃ r, body quote cs.length cs = .ok r ∧ s = { r with spelling := quote :: r.spelling } := by
  cases hb : body quote cs.length cs with
  | error e => simp [scan, hb, bind, Except.bind]
  | ok r => simp [scan, hb, bind, Except.bind, pure, Except.pure, eq_comm]

theorem scan_splits {quote : Char} {cs : List Char} {s : Segment}
    (h : scan quote cs = .ok s) : s.Splits (quote :: cs) := by
  obtain ⟨r, hr, rfl⟩ := scan_eq_ok.1 h
  exact congrArg (quote :: ·) (body_splits hr)

theorem scan_ne_nil {quote : Char} {cs : List Char} {s : Segment}
    (h : scan quote cs = .ok s) : s.spelling ≠ [] := by
  obtain ⟨r, -, rfl⟩ := scan_eq_ok.1 h
  exact List.cons_ne_nil _ _

end StringLiteral

namespace Scanned

/-- A piece takes a character at least, and the rest is what it leaves. -/
def Splits (s : Scanned) (cs : List Char) : Prop := s.spelling ++ s.rest = cs ∧ s.spelling ≠ []

theorem word_splits {c : Char} (hc : isIdentifierStart c) (cs : List Char) :
    (word (c :: cs)).Splits (c :: cs) := by
  refine ⟨splitWhile_append _ _, ?_⟩
  simp [word, splitWhile, isIdentifierPart_of_start hc]

theorem privateName_splits (cs : List Char) : (privateName cs).Splits ('#' :: cs) :=
  ⟨congrArg ('#' :: ·) (splitWhile_append _ cs), by simp [privateName]⟩

theorem lineComment_splits (cs : List Char) : (lineComment cs).Splits ('/' :: '/' :: cs) :=
  ⟨congrArg ('/' :: '/' :: ·) (Trivia.lineComment_split cs), by simp [lineComment]⟩

theorem blockComment_splits {cs : List Char} {s : Scanned} (h : blockComment cs = .ok s) :
    s.Splits ('/' :: '*' :: cs) := by
  unfold blockComment at h
  split at h
  · next hb =>
    simp only [Except.ok.injEq] at h
    subst h
    exact ⟨congrArg ('/' :: '*' :: ·) (Trivia.blockComment?_split hb), by simp⟩
  · simp at h

theorem operator_splits {α : Type} {t : Trie α} {kind : α → Kind} {c : Char} {cs : List Char}
    {s : Scanned} (h : operator t kind c cs = .ok s) : s.Splits (c :: cs) := by
  unfold operator at h
  split at h
  · next hl =>
    simp only [Except.ok.injEq] at h
    subst h
    exact Trie.longest_split hl
  · simp at h

theorem number_eq_ok {cs : List Char} {s : Scanned} : number cs = .ok s ↔
    ∃ raw rest, NumberLiteral.scan cs = .ok (raw, rest) ∧
      s = ⟨.token (.number (.ofList raw)), raw, rest⟩ := by
  unfold number
  cases h : NumberLiteral.scan cs with
  | error e => simp
  | ok r =>
    constructor
    · rintro ⟨⟩
      exact ⟨r.1, r.2, rfl, rfl⟩
    · rintro ⟨_, _, ⟨⟩, rfl⟩
      rfl

theorem string_eq_ok {quote : Char} {cs : List Char} {s : Scanned} : string quote cs = .ok s ↔
    ∃ r, StringLiteral.scan quote cs = .ok r ∧
      s = ⟨.token (.string r.value), r.spelling, r.rest⟩ := by
  cases hs : StringLiteral.scan quote cs with
  | error e => simp [string, hs, bind, Except.bind]
  | ok r => simp [string, hs, bind, Except.bind, pure, Except.pure, eq_comm]

theorem number_splits {cs : List Char} {s : Scanned} (hs : NumberLiteral.starts cs)
    (h : number cs = .ok s) : s.Splits cs := by
  obtain ⟨raw, rest, hscan, rfl⟩ := number_eq_ok.1 h
  exact ⟨NumberLiteral.scan_split hscan, NumberLiteral.scan_ne_nil hs hscan⟩

theorem string_splits {quote : Char} {cs : List Char} {s : Scanned}
    (h : string quote cs = .ok s) : s.Splits (quote :: cs) := by
  obtain ⟨r, hscan, rfl⟩ := string_eq_ok.1 h
  exact ⟨StringLiteral.scan_splits hscan, StringLiteral.scan_ne_nil hscan⟩

theorem tokenWith_splits {α : Type} {t : Trie α} {kind : α → Kind} {d : Dialect} {c : Char}
    {cs : List Char} {s : Scanned} (h : tokenWith t kind d c cs = .ok s) : s.Splits (c :: cs) := by
  unfold tokenWith at h
  split at h
  · next hd =>
    simp only [Bool.and_eq_true, beq_iff_eq] at hd
    simp only [Except.ok.injEq] at h
    rw [← h, hd.2]
    exact privateName_splits cs
  · split at h
    · exact string_splits h
    · split at h
      · next hs => exact number_splits hs h
      · split at h
        · next hc =>
          simp only [Except.ok.injEq] at h
          rw [← h]
          exact word_splits hc cs
        · exact operator_splits h

theorem nextWith_splits {α : Type} {t : Trie α} {kind : α → Kind} {d : Dialect} {c : Char}
    {cs : List Char} {s : Scanned} (h : nextWith t kind d c cs = .ok s) : s.Splits (c :: cs) := by
  unfold nextWith at h
  split at h
  · simp only [Except.ok.injEq] at h
    subst h
    exact ⟨rfl, by simp⟩
  · split at h
    · simp only [Except.ok.injEq] at h
      subst h
      exact ⟨rfl, by simp⟩
    · split at h
      · simp only [Except.ok.injEq] at h
        subst h
        exact lineComment_splits _
      · exact blockComment_splits h
      · exact tokenWith_splits h

theorem next_splits {d : Dialect} {c : Char} {cs : List Char} {s : Scanned}
    (h : next d c cs = .ok s) : s.Splits (c :: cs) := nextWith_splits h

/-- Every piece takes a character at least. -/
theorem next_shorter {d : Dialect} {c : Char} {cs : List Char} {s : Scanned}
    (h : next d c cs = .ok s) : s.rest.length ≤ cs.length := by
  obtain ⟨hsplit, hne⟩ := next_splits h
  have hlength := congrArg List.length hsplit
  have hpos := List.length_pos_iff.2 hne
  simp only [List.length_append, List.length_cons] at hlength
  omega

end Scanned

namespace TokenStream

theorem scan_nil (d : Dialect) (fuel : Nat) (place : Place) (newline : Bool) :
    scan d fuel place newline [] = .ok ⟨[], ⟨.eof, place, newline⟩⟩ := by
  cases fuel <;> rfl

end TokenStream

end JsClass
