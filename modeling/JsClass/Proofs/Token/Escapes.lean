import Mathlib.Data.List.Chain
import JsClass.Proofs.Numeral.Legible
import JsClass.Proofs.Token.Spelling

/-!
The segments of a string literal, which are plain characters and escapes, and the texts they
denote. The forms leave open which texts may stand in the braces of an escape: of these the scanner
accepts more than hexadecimal digits.
-/
namespace JsClass.StringLiteral

variable {c : Char} {n d value length : Nat} {p : CodePoint} {cs ds text rest : List Char}
  {denoted : Text} {s : Segment}

/-! Hexadecimal numbers. -/

def hexAlphabet : List Char := "0123456789abcdef".toList

/-- The number of a digit in either case. -/
def hexPlace (c : Char) : Nat := hexAlphabet.idxOf c.toLower

/-- The number that digits behind the number `value` make up in base sixteen. -/
def hexNumber (value : Nat) (ds : List Char) : Nat :=
  ds.foldl (fun n d => n * 16 + hexPlace d) value

/-- One digit or more, and their number in base sixteen. -/
structure IsHexNumber (ds : List Char) (n : Nat) : Prop where
  nonempty : ds ≠ []
  digits : ∀ d ∈ ds, d.toLower ∈ hexAlphabet
  value : hexNumber 0 ds = n

theorem ne_of_hex {x : Char} (hc : c.toLower ∈ hexAlphabet) (hx : x.toLower ∉ hexAlphabet) :
    c ≠ x :=
  fun h => hx (h ▸ hc)

theorem IsHexNumber.head_ne_brace (h : IsHexNumber ds n) :
    ∀ c ∈ (ds ++ rest).head?, c ≠ '\x7b' := by
  obtain ⟨d, ds, rfl⟩ := List.exists_cons_of_ne_nil h.nonempty
  rintro _ ⟨⟩
  exact ne_of_hex (h.digits _ List.mem_cons_self) (by decide)

theorem hexValue?_eq_some : hexValue? c = some d ↔ c.toLower ∈ hexAlphabet ∧ hexPlace c = d := by
  have hlow : ∀ n < 0x80, hexValue? (Char.ofNat n) =
      if (Char.ofNat n).toLower ∈ hexAlphabet then some (hexPlace (Char.ofNat n)) else none := by
    decide +kernel
  by_cases hc : c.toNat < 0x80
  · have hc := hlow c.toNat hc
    rw [Char.ofNat_toNat] at hc
    simp [hc]
  · have hascii : hexAlphabet.all (·.toNat < 0x80) := by decide
    simp only [List.all_eq_true, decide_eq_true_eq] at hascii
    have hcase : c.toLower = c := by
      unfold Char.toLower
      split
      · next hupper =>
        have hle : c.toNat ≤ 0x5A := hupper.2
        omega
      · rfl
    have hnot : c ∉ hexAlphabet := fun hmem => hc (hascii c hmem)
    simp [hexValue?, hc, hcase, hnot]

/-- A run of digits is read as the number that they make up. -/
theorem hexDigits?_eq_some : hexDigits? length value cs = some (n, ds, rest) ↔
    ds ++ rest = cs ∧ ds.length = length ∧ (∀ d ∈ ds, d.toLower ∈ hexAlphabet) ∧
      hexNumber value ds = n := by
  induction length generalizing value cs ds with
  | zero =>
    simp only [hexDigits?, Option.some.injEq, Prod.mk.injEq, List.length_eq_zero_iff]
    constructor
    · rintro ⟨rfl, rfl, rfl⟩
      exact ⟨rfl, rfl, by simp, rfl⟩
    · rintro ⟨rfl, rfl, -, rfl⟩
      exact ⟨rfl, rfl, rfl⟩
  | succ length ih =>
    cases cs with
    | nil =>
      simp only [hexDigits?, List.append_eq_nil_iff, reduceCtorEq, false_iff]
      rintro ⟨⟨rfl, -⟩, hlength, -⟩
      cases hlength
    | cons c cs =>
      simp only [hexDigits?, Option.bind_eq_bind, Option.bind_eq_some_iff, Option.pure_def,
        Option.some.injEq, Prod.mk.injEq]
      constructor
      · rintro ⟨d, hd, ⟨m, ds, behind⟩, hds, rfl, rfl, rfl⟩
        obtain ⟨hmem, rfl⟩ := hexValue?_eq_some.1 hd
        obtain ⟨rfl, rfl, hall, rfl⟩ := ih.1 hds
        exact ⟨rfl, rfl, List.forall_mem_cons.2 ⟨hmem, hall⟩, rfl⟩
      · rintro ⟨hsplit, hlength, hall, rfl⟩
        obtain _ | ⟨x, ds⟩ := ds
        · cases hlength
        · obtain ⟨rfl, rfl⟩ := List.cons.inj hsplit
          obtain ⟨hx, hall⟩ := List.forall_mem_cons.1 hall
          exact ⟨_, hexValue?_eq_some.2 ⟨hx, rfl⟩, _,
            ih.2 ⟨rfl, Nat.succ.inj hlength, hall, rfl⟩, rfl, rfl, rfl⟩

/-! The forms. -/

/-- The letters behind a backslash that denote control characters. -/
def controls : List (Char × Char) :=
  [('n', '\n'), ('t', '\t'), ('r', '\r'), ('b', '\x08'), ('f', '\x0c'), ('v', '\x0b')]

/-- The letters that need hexadecimal digits behind them, and how many. -/
def fixedLengths : List (Char × Nat) := [('x', 2), ('u', 4)]

/-- What a backslash at the end of a line has behind it. -/
def lineEndings : List (List Char) := [['\n'], ['\r'], ['\r', '\n'], ['\u2028'], ['\u2029']]

/-- What may stand behind a backslash, and the text that it denotes. -/
inductive Escape (braced : List Char → Nat → Prop) : List Char → Text → Prop where
  | control {letter c : Char} (h : (letter, c) ∈ controls) : Escape braced [letter] [.ofChar c]
  | nul : Escape braced ['0'] [⟨0, by decide⟩]
  | fixed {letter : Char} {length : Nat} {ds : List Char} {p : CodePoint}
    (h : (letter, length) ∈ fixedLengths) (hlength : ds.length = length)
    (hds : IsHexNumber ds p.val) : Escape braced (letter :: ds) [p]
  | braced {ds : List Char} {p : CodePoint} (h : braced ds p.val) :
    Escape braced ('u' :: '\x7b' :: ds ++ ['\x7d']) [p]
  | continuation {text : List Char} (h : text ∈ lineEndings) : Escape braced text []
  | other {c : Char} (hcontrol : c ∉ controls.map (·.1)) (hfixed : c ∉ fixedLengths.map (·.1))
    (hend : [c] ∉ lineEndings) (hdigit : Text.isDigit c = false) : Escape braced [c] [.ofChar c]

/-- A segment between the quotes, and the text that it denotes. -/
inductive IsSegment (braced : List Char → Nat → Prop) (quote : Char) : List Char × Text → Prop where
  | plain {c : Char} (hquote : c ≠ quote) (hescape : c ≠ '\\') (hend : c ≠ '\n' ∧ c ≠ '\r') :
    IsSegment braced quote ([c], [.ofChar c])
  | escape {text : List Char} {denoted : Text} (h : Escape braced text denoted) :
    IsSegment braced quote ('\\' :: text, denoted)

/-- The segments of a literal. No digit may stand behind the escape of the null character, which
would look like an octal number. -/
structure Segmented (braced : List Char → Nat → Prop) (quote : Char)
    (segments : List (List Char × Text)) : Prop where
  forms : ∀ s ∈ segments, IsSegment braced quote s
  apart : segments.IsChain fun s t => s.1 = ['\\', '0'] → ∀ c ∈ t.1.head?, Text.isDigit c = false

/-! Escapes with a number. -/

theorem codePoint_eq_ok : codePoint n = .ok p ↔ p.val = n := by
  unfold codePoint CodePoint.ofNat?
  by_cases hn : n < 0x110000
  · simp only [hn, dif_pos, Except.ok.injEq]
    constructor
    · rintro rfl
      rfl
    · rintro rfl
      rfl
  · simp only [hn, dif_neg, not_false_eq_true, reduceCtorEq, false_iff]
    rintro rfl
    exact hn p.isLt

/-- The texts in braces that are read: all that stand for a number which is not below zero. -/
structure Readable (ds : List Char) (n : Nat) : Prop where
  unclosed : '\x7d' ∉ ds
  value : Numeral.integer? 16 ds = some (.ofNat n)

theorem digitValue?_hex (h : c.toLower ∈ hexAlphabet) :
    Numeral.digitValue? 16 c = some (hexPlace c) := by
  have hvalue := hexValue?_eq_some.2 ⟨h, rfl⟩
  unfold hexValue? at hvalue
  split at hvalue
  · exact hvalue
  · cases hvalue

theorem restValue?_hex (h : ∀ d ∈ ds, d.toLower ∈ hexAlphabet) :
    Numeral.restValue? 16 value ds = some (hexNumber value ds) := by
  induction ds generalizing value with
  | nil => rfl
  | cons d ds ih =>
    obtain ⟨hd, hds⟩ := List.forall_mem_cons.1 h
    have hplace := digitValue?_hex hd
    rw [Numeral.restValue?]
    · simp only [hplace]
      exact ih hds
    · rintro c rest rfl rfl
      rw [Numeral.digitValue?_underscore] at hplace
      cases hplace

/-- A letter that marks a radix is no digit, so there is no mark to drop. -/
theorem dropMark_hex (h : ∀ d ∈ ds, d.toLower ∈ hexAlphabet) : Numeral.dropMark 16 ds = ds := by
  unfold Numeral.dropMark
  split
  · next zero mark rest =>
    have hmark : Numeral.radixOfMark? mark ≠ some 16 := by
      intro hradix
      have hletter : mark = 'x' ∨ mark = 'X' := by
        simp only [Numeral.radixOfMark?] at hradix
        grind
      have hmark := h mark (by simp)
      rcases hletter with rfl | rfl
      · exact ne_of_hex hmark (by decide) rfl
      · exact ne_of_hex hmark (by decide) rfl
    simp [hmark]
  · rfl

/-- Hexadecimal digits in braces are read as their number. -/
theorem IsHexNumber.readable (h : IsHexNumber ds n) : Readable ds n := by
  obtain ⟨hne, hall, rfl⟩ := h
  refine ⟨fun hmem => ne_of_hex (hall _ hmem) (by decide) rfl, ?_⟩
  have hpad : ∀ c ∈ ds, Numeral.isPadding c = false := fun c hc =>
    Numeral.isPadding_of_digitValue? (Option.isSome_of_eq_some (digitValue?_hex (hall c hc)))
  rw [Numeral.integer?_unsigned hpad]
  · obtain ⟨d, ds, rfl⟩ := List.exists_cons_of_ne_nil hne
    obtain ⟨hd, hds⟩ := List.forall_mem_cons.1 hall
    simp [Numeral.natValue?, dropMark_hex hall, Numeral.withinLimit, Numeral.digitsValue?,
      digitValue?_hex hd, restValue?_hex hds, hexNumber]
  · intro c hc
    have hdigit := hall c (List.mem_of_mem_head? hc)
    exact ⟨ne_of_hex hdigit (by decide), ne_of_hex hdigit (by decide)⟩

theorem fixedEscape_eq_ok {letter : Char} (hlength : 0 < length) :
    fixedEscape letter length cs = .ok s ↔ ∃ ds p, ds.length = length ∧ IsHexNumber ds p.val ∧
      ds ++ s.rest = cs ∧ s = ⟨letter :: ds, [p], s.rest⟩ := by
  constructor
  · intro h
    unfold fixedEscape at h
    split at h
    · cases h
    · next n ds rest hds =>
      obtain ⟨hsplit, rfl, hall, hvalue⟩ := hexDigits?_eq_some.1 hds
      cases hp : codePoint n with
      | error e => simp [hp, bind, Except.bind] at h
      | ok p =>
        simp only [hp, bind, Except.bind, pure, Except.pure, Except.ok.injEq] at h
        subst h
        have hpn := codePoint_eq_ok.1 hp
        have hne := List.length_pos_iff.1 hlength
        exact ⟨ds, p, rfl, ⟨hne, hall, hvalue.trans hpn.symm⟩, hsplit, rfl⟩
  · rintro ⟨ds, p, hds, ⟨-, hall, hvalue⟩, hsplit, hs⟩
    have hdigits : hexDigits? length 0 cs = some (p.val, ds, s.rest) :=
      hexDigits?_eq_some.2 ⟨hsplit, hds, hall, hvalue⟩
    have hp : codePoint p.val = .ok p := codePoint_eq_ok.2 rfl
    rw [hs]
    simp [fixedEscape, hdigits, hp, bind, Except.bind, pure, Except.pure]

theorem bracedEscape_eq_ok :
    bracedEscape cs = .ok s ↔ ∃ ds p, Readable ds p.val ∧ ds ++ '\x7d' :: s.rest = cs ∧
      s = ⟨'u' :: '\x7b' :: ds ++ ['\x7d'], [p], s.rest⟩ := by
  constructor
  · intro h
    have hsplit := splitWhile_append (· != '\x7d') cs
    have hinside : ∀ c ∈ (splitWhile (· != '\x7d') cs).1, (c != '\x7d') = true := splitWhile_all
    unfold bracedEscape at h
    split at h
    · cases h
    · cases h
    · next ds brace rest _ hcut =>
      rw [hcut] at hsplit hinside
      have hbrace : brace = '\x7d' := by
        have hhead : brace ∈ (splitWhile (· != '\x7d') cs).2.head? := by simp [hcut]
        simpa using Scanned.head?_splitWhile hhead
      split at h
      · cases h
      · next n hn =>
        cases hp : codePoint n with
        | error e => simp [hp, bind, Except.bind] at h
        | ok p =>
          simp only [hp, bind, Except.bind, pure, Except.pure, Except.ok.injEq] at h
          subst h hbrace
          rw [← codePoint_eq_ok.1 hp] at hn
          refine ⟨ds, p, ⟨fun hmem => ?_, hn⟩, hsplit, rfl⟩
          simpa using hinside _ hmem
      · cases h
  · rintro ⟨ds, p, ⟨hunclosed, hvalue⟩, hsplit, hs⟩
    have hcut : splitWhile (· != '\x7d') cs = (ds, '\x7d' :: s.rest) := by
      have hinside : ∀ c ∈ ds, (c != '\x7d') = true := fun c hc =>
        bne_iff_ne.2 fun heq => hunclosed (heq ▸ hc)
      rw [← hsplit, splitWhile, List.takeWhile_append_of_pos hinside,
        List.dropWhile_append_of_pos hinside]
      simp
    have hp : codePoint p.val = .ok p := codePoint_eq_ok.2 rfl
    obtain _ | ⟨c, ds⟩ := ds
    · cases hvalue
    · rw [hs]
      simp [bracedEscape, hcut, hvalue, hp, bind, Except.bind, pure, Except.pure]

/-! Escapes. -/

theorem control?_of_mem {d : Char} (h : (c, d) ∈ controls) : control? c = some d := by
  have hall : ∀ row ∈ controls, control? row.1 = some row.2 := by decide
  exact hall _ h

theorem control?_eq_none : control? c = none ↔ c ∉ controls.map (·.1) := by
  constructor
  · intro h hmem
    obtain ⟨⟨letter, d⟩, hrow, rfl⟩ := List.mem_map.1 hmem
    cases h.symm.trans (control?_of_mem hrow)
  · intro h
    simp only [controls, List.map_cons, List.map_nil, List.mem_cons, List.not_mem_nil, not_or] at h
    simp [control?, h]

theorem mem_of_control? {d : Char} (h : control? c = some d) : (c, d) ∈ controls := by
  by_cases hc : c ∈ controls.map (·.1)
  · obtain ⟨⟨letter, e⟩, hrow, rfl⟩ := List.mem_map.1 hc
    cases h.symm.trans (control?_of_mem hrow)
    exact hrow
  · cases h.symm.trans (control?_eq_none.2 hc)

theorem isLineTerminator_iff : Text.isLineTerminator c ↔ [c] ∈ lineEndings := by
  simp [Text.isLineTerminator, lineEndings, or_assoc]

theorem fixedEscape_formed {letter : Char} (hletter : (letter, length) ∈ fixedLengths)
    (h : fixedEscape letter length cs = .ok s) : Escape Readable s.spelling s.value := by
  have hpos : 0 < length := by
    have hall : ∀ row ∈ fixedLengths, 0 < row.2 := by decide
    exact hall _ hletter
  obtain ⟨ds, p, hlength, hds, -, hs⟩ := (fixedEscape_eq_ok hpos).1 h
  rw [hs]
  exact .fixed hletter hlength hds

/-- An escape without digits is a single character, unless it is a line ending of two. -/
theorem escape_single (hfixed : c ∉ fixedLengths.map (·.1))
    (hfeed : c = '\r' → ∀ x ∈ rest.head?, x ≠ '\n') :
    escape (c :: rest) = match control? c with
      | some d => .ok ⟨[c], [.ofChar d], rest⟩
      | none =>
        if c == '0' && !rest.head?.any Text.isDigit then .ok ⟨[c], [⟨0, by decide⟩], rest⟩
        else if Text.isLineTerminator c then .ok ⟨[c], [], rest⟩
        else if Text.isDigit c then .error (.cause .octalEscape)
        else .ok ⟨[c], [.ofChar c], rest⟩ := by
  simp only [fixedLengths, List.map_cons, List.map_nil, List.mem_cons, List.not_mem_nil, or_false,
    not_or] at hfixed
  unfold escape
  split
  · next heq => cases heq
  · next heq => exact absurd (List.cons.inj heq).1 hfixed.1
  · next heq => exact absurd (List.cons.inj heq).1 hfixed.2
  · next heq => exact absurd (List.cons.inj heq).1 hfixed.2
  · next heq =>
    obtain ⟨rfl, rfl⟩ := List.cons.inj heq
    exact absurd rfl (hfeed rfl '\n' rfl)
  · next heq =>
    obtain ⟨rfl, rfl⟩ := List.cons.inj heq
    rfl

/-- What is read behind a backslash has one of the forms. -/
theorem escape_formed (h : escape cs = .ok s) : Escape Readable s.spelling s.value := by
  unfold escape at h
  split at h
  · cases h
  · exact fixedEscape_formed (by decide) h
  · obtain ⟨ds, p, hds, -, hs⟩ := bracedEscape_eq_ok.1 h
    rw [hs]
    exact .braced hds
  · exact fixedEscape_formed (by decide) h
  · cases h
    exact .continuation (show ['\r', '\n'] ∈ lineEndings by decide)
  · next c rest hx _ hu _ =>
    split at h
    · next d hd =>
      cases h
      exact .control (mem_of_control? hd)
    · next hcontrol =>
      split at h
      · next hzero =>
        simp only [Bool.and_eq_true, beq_iff_eq] at hzero
        cases h
        rw [hzero.1]
        exact .nul
      · split at h
        · next hend =>
          cases h
          exact .continuation (isLineTerminator_iff.1 hend)
        · next hend =>
          split at h
          · cases h
          · next hdigit =>
            cases h
            have hfixed : c ∉ fixedLengths.map (·.1) := by
              simpa [fixedLengths] using And.intro hx hu
            exact .other (control?_eq_none.1 hcontrol) hfixed
              (fun hmem => hend (isLineTerminator_iff.2 hmem)) (by simpa using hdigit)

/-- A null character is read only where no digit is behind it. -/
theorem digit_of_escape (h : escape cs = .ok s) (hs : s.spelling = ['0']) :
    ∀ c ∈ s.rest.head?, Text.isDigit c = false := by
  have hsplit : s.spelling ++ s.rest = cs := escape_splits h
  rw [hs, List.singleton_append] at hsplit
  have hcontrol : control? '0' = none := by decide
  have hend : Text.isLineTerminator '0' = false := by decide
  have hzero : Text.isDigit '0' = true := by decide
  rw [← hsplit, escape_single (by decide) (absurd · (by decide))] at h
  simp only [hcontrol, hend, hzero] at h
  cases hdigit : s.rest.head?.any Text.isDigit with
  | true => simp [hdigit] at h
  | false => exact (Option.any_eq_false _ _).1 hdigit

theorem escape_lineTerminator (hend : Text.isLineTerminator c)
    (hfeed : ∀ x ∈ rest.head?, x ≠ '\n') : escape (c :: rest) = .ok ⟨[c], [], rest⟩ := by
  have hplain : c ∉ fixedLengths.map (·.1) ∧ control? c = none ∧ (c == '0') = false := by
    simp only [Text.isLineTerminator, Bool.or_eq_true, beq_iff_eq] at hend
    rcases hend with ((rfl | rfl) | rfl) | rfl <;> decide
  rw [escape_single hplain.1 fun _ => hfeed, hplain.2.1]
  simp [hplain.2.2, hend]

/-- No digit is a brace, so digits behind their letter are not read as an escape in braces. -/
theorem escape_fixed {letter : Char} (hletter : (letter, length) ∈ fixedLengths)
    (hbrace : ∀ c ∈ cs.head?, c ≠ '\x7b') :
    escape (letter :: cs) = fixedEscape letter length cs := by
  simp only [fixedLengths, List.mem_cons, Prod.mk.injEq, List.not_mem_nil, or_false] at hletter
  rcases hletter with ⟨rfl, rfl⟩ | ⟨rfl, rfl⟩
  · rfl
  · unfold escape
    split
    · next heq => cases heq
    · next heq => cases heq
    · next heq =>
      obtain ⟨-, rfl⟩ := List.cons.inj heq
      exact absurd rfl (hbrace _ rfl)
    · next heq =>
      obtain ⟨-, rfl⟩ := List.cons.inj heq
      rfl
    · next heq => cases heq
    · next hu _ heq =>
      exact absurd (List.cons.inj heq).1.symm hu

/-- What has one of the forms is read back. -/
theorem escape_read (h : Escape Readable text denoted) (hfeed : ∀ c ∈ rest.head?, c ≠ '\n')
    (hnul : text = ['0'] → ∀ c ∈ rest.head?, Text.isDigit c = false) :
    escape (text ++ rest) = .ok ⟨text, denoted, rest⟩ := by
  cases h with
  | @control letter d h =>
    have hfixed : ∀ row ∈ controls, row.1 ∉ fixedLengths.map (·.1) := by decide
    rw [List.singleton_append, escape_single (hfixed _ h) fun _ => hfeed, control?_of_mem h]
  | nul =>
    have hdigit := (Option.any_eq_false _ _).2 (hnul rfl)
    have hcontrol : control? '0' = none := by decide
    rw [List.singleton_append, escape_single (by decide) fun _ => hfeed, hcontrol]
    simp [hdigit]
  | @fixed letter length ds p h hlength hds =>
    have hpos : ∀ row ∈ fixedLengths, 0 < row.2 := by decide
    have hread : fixedEscape letter length (ds ++ rest) = .ok ⟨letter :: ds, [p], rest⟩ :=
      (fixedEscape_eq_ok (hpos _ h)).2 ⟨ds, p, hlength, hds, rfl, rfl⟩
    rw [List.cons_append, escape_fixed h, hread]
    exact hds.head_ne_brace
  | @braced ds p h =>
    have hread : bracedEscape (ds ++ '\x7d' :: rest) =
        .ok ⟨'u' :: '\x7b' :: ds ++ ['\x7d'], [p], rest⟩ :=
      bracedEscape_eq_ok.2 ⟨ds, p, h, rfl, rfl⟩
    simpa [escape] using hread
  | continuation h =>
    by_cases hpair : text = ['\r', '\n']
    · rw [hpair]
      rfl
    · obtain ⟨c, rfl⟩ : ∃ c, text = [c] := by
        simp only [lineEndings, List.mem_cons, List.not_mem_nil, or_false] at h
        rcases h with h | h | h | h | h
        · exact ⟨_, h⟩
        · exact ⟨_, h⟩
        · exact absurd h hpair
        · exact ⟨_, h⟩
        · exact ⟨_, h⟩
      exact escape_lineTerminator (isLineTerminator_iff.2 h) hfeed
  | @other c hcontrol hfixed hend hdigit =>
    have hzero : (c == '0') = false := by
      rw [beq_eq_false_iff_ne]
      rintro rfl
      exact absurd hdigit (by decide)
    rw [List.singleton_append, escape_single hfixed fun _ => hfeed, control?_eq_none.2 hcontrol]
    simp [hzero, mt isLineTerminator_iff.1 hend, hdigit]

end JsClass.StringLiteral
