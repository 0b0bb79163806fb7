import JsClass.Proofs.LongestOperator
import JsClass.Proofs.StringLiterals

/-!
Scanning in front of a line feed. No scanner looks beyond the end of its line in another way than
beyond the end of the text: what was read of a text alone is read as well with a line feed and more
text behind it.
-/
namespace JsClass

variable {c : Char} {cs text rest behind : List Char}

theorem splitWhile_followed {p : Char → Bool} (hp : p '\n' = false) :
    splitWhile p (cs ++ '\n' :: behind) =
      ((splitWhile p cs).1, (splitWhile p cs).2 ++ '\n' :: behind) := by
  induction cs with
  | nil => simp [splitWhile, hp]
  | cons c cs ih =>
    simp only [splitWhile, Prod.mk.injEq] at ih ⊢
    cases hc : p c <;> simp [hc, ih]

theorem head?_followed {P : Char → Prop} (hcs : ∀ c ∈ cs.head?, P c) (hline : P '\n') :
    ∀ c ∈ (cs ++ '\n' :: behind).head?, P c := by
  cases cs with
  | nil =>
    rintro _ ⟨⟩
    exact hline
  | cons c cs => exact hcs

/-- A closed comment does not depend on what is behind it. -/
theorem Trivia.blockComment?_append (h : blockComment? cs = some (text, rest)) :
    blockComment? (cs ++ behind) = some (text, rest ++ behind) := by
  fun_induction blockComment? cs generalizing text rest with
  | case1 => cases h
  | case2 =>
    cases h
    rfl
  | case3 c cs hopen ih =>
    obtain ⟨⟨body, after⟩, hbody, he⟩ := Option.map_eq_some_iff.1 h
    cases he
    rw [List.cons_append, blockComment?, ih hbody]
    · rfl
    · rintro after rfl heq
      cases cs with
      | nil => cases hbody
      | cons x cs => exact hopen cs rfl (by rw [(List.cons.inj heq).1])

namespace NumberLiteral

open Numeral

theorem fraction_followed : fraction (cs ++ '\n' :: behind) =
    ((fraction cs).1, (fraction cs).2 ++ '\n' :: behind) := by
  cases cs with
  | nil => rfl
  | cons c cs =>
    by_cases hc : c = '.'
    · simp [hc, fraction, splitWhile_followed (show Text.isDigit '\n' = false by decide)]
    · simp [fraction, hc]

theorem sign_followed : sign (cs ++ '\n' :: behind) =
    ((sign cs).1, (sign cs).2 ++ '\n' :: behind) := by
  cases cs with
  | nil => rfl
  | cons c cs =>
    by_cases hplus : c = '+'
    · simp [hplus, sign]
    · by_cases hminus : c = '-'
      · simp [hminus, sign]
      · simp [sign, hplus, hminus]

theorem exponent_followed (h : exponent cs = .ok (text, rest)) :
    exponent (cs ++ '\n' :: behind) = .ok (text, rest ++ '\n' :: behind) := by
  rw [exponent_eq_ok] at h ⊢
  rcases h with ⟨hhead, rfl, rfl⟩ | ⟨mark, after, rfl, hmark, hne, rfl, rfl⟩
  · exact Or.inl ⟨head?_followed hhead (by decide), rfl, rfl⟩
  · refine Or.inr ⟨mark, after ++ '\n' :: behind, rfl, hmark, ?_⟩
    rw [sign_followed, splitWhile_followed (by decide)]
    exact ⟨hne, rfl, rfl⟩

theorem decimal_followed (h : decimal cs = .ok (text, rest)) :
    decimal (cs ++ '\n' :: behind) = .ok (text, rest ++ '\n' :: behind) := by
  rw [decimal_eq_ok] at h ⊢
  obtain ⟨exp, hexp, rfl⟩ := h
  rw [splitWhile_followed (by decide), fraction_followed]
  exact ⟨exp, exponent_followed hexp, rfl⟩

theorem radixDigits_followed {radix : Nat} {mark : Char}
    (h : radixDigits radix mark cs = .ok (text, rest)) :
    radixDigits radix mark (cs ++ '\n' :: behind) = .ok (text, rest ++ '\n' :: behind) := by
  have hline : isRadixDigit radix '\n' = false := by
    have hvalue : alphanumericValue? '\n' = none := by decide
    simp [isRadixDigit, digitValue?, hvalue]
  rw [radixDigits_eq_ok] at h ⊢
  rw [splitWhile_followed hline]
  obtain ⟨hne, rfl, rfl⟩ := h
  exact ⟨hne, rfl, rfl⟩

theorem unchecked_followed (h : unchecked cs = .ok (text, rest)) :
    unchecked (cs ++ '\n' :: behind) = .ok (text, rest ++ '\n' :: behind) := by
  rcases unchecked_eq_ok h with ⟨radix, mark, after, rfl, hmark, hradix⟩ | ⟨hplain, hdecimal⟩
  · rw [List.cons_append, List.cons_append, unchecked_marked hmark]
    exact radixDigits_followed hradix
  · rw [unchecked_decimal]
    · exact decimal_followed hdecimal
    · intro mark after radix heq hmark
      match cs with
      | [] => cases heq
      | [c] =>
        cases heq
        cases hmark
      | c :: x :: cs =>
        cases heq
        exact hplain mark cs radix rfl hmark

theorem scan_followed (h : scan cs = .ok (text, rest)) :
    scan (cs ++ '\n' :: behind) = .ok (text, rest ++ '\n' :: behind) := by
  rw [scan_eq_ok] at h ⊢
  exact ⟨unchecked_followed h.1, head?_followed h.2 (by decide)⟩

theorem starts_followed : starts (c :: (cs ++ '\n' :: behind)) = starts (c :: cs) := by
  by_cases hc : c = '.'
  · subst hc
    cases cs with
    | nil => simp [starts, show Text.isDigit '\n' = false by decide]
    | cons x cs => rfl
  · simp [starts]

end NumberLiteral

/-- A closed literal does not depend on what is behind it. -/
theorem StringLiteral.scan_append {quote : Char} {s : Segment} (hquote : quote = '"' ∨ quote = '\'')
    (h : scan quote cs = .ok s) :
    scan quote (cs ++ behind) = .ok { s with rest := s.rest ++ behind } := by
  obtain ⟨r, hr, rfl⟩ := scan_eq_ok.1 h
  obtain ⟨segments, hsegments, hspelling, hvalue⟩ := body_segmented hr
  have hsplit : r.spelling ++ r.rest = cs := body_splits hr
  rw [← hsplit, List.append_assoc, hspelling, scan_read hquote hsegments, hvalue]

theorem prefix_of_append_cons {word pre post : List Char} {z : Char} (hz : z ∉ word)
    (h : word <+: pre ++ z :: post) : word <+: pre := by
  have hfull : pre ++ [z] <+: pre ++ z :: post := ⟨post, by simp⟩
  rcases List.prefix_or_prefix_of_prefix h hfull with hle | hge
  · rcases List.prefix_concat_iff.1 hle with rfl | hle
    · exact absurd (by simp) hz
    · exact hle
  · exact absurd (hge.subset (by simp)) hz

/-- No operator goes on in the next line. -/
theorem OperatorTable.longest_followed {α : Type} {T : OperatorTable α} {a : α} {word : List Char}
    (hwords : ∀ word ∈ T.words, '\n' ∉ word) (h : T.trie.longest cs = some (a, word, rest)) :
    T.trie.longest (cs ++ '\n' :: behind) = some (a, word, rest ++ '\n' :: behind) := by
  obtain ⟨hword, hlongest, rfl⟩ := longest_eq_some.1 h
  refine longest_eq_some.2 ⟨hword, ⟨?_, hlongest.holds, fun other hother hbegins => ?_⟩, by simp⟩
  · exact hlongest.start.trans (List.prefix_append _ _)
  · exact hlongest.longest other hother (prefix_of_append_cons (hwords other hother) hbegins)

namespace Scanned

variable {d : Dialect} {s : Scanned}

/-- A piece, with a line feed and a text behind its rest. -/
def followed (s : Scanned) (behind : List Char) : Scanned :=
  { s with rest := s.rest ++ '\n' :: behind }

theorem word_followed : word (cs ++ '\n' :: behind) = (word cs).followed behind := by
  simp [word, followed, splitWhile_followed (show isIdentifierPart '\n' = false by decide)]

theorem privateName_followed :
    privateName (cs ++ '\n' :: behind) = (privateName cs).followed behind := by
  simp [privateName, followed, splitWhile_followed (show isIdentifierPart '\n' = false by decide)]

theorem lineComment_followed :
    lineComment (cs ++ '\n' :: behind) = (lineComment cs).followed behind := by
  have hfollowed : Trivia.lineComment (cs ++ '\n' :: behind) =
      ((Trivia.lineComment cs).1, (Trivia.lineComment cs).2 ++ '\n' :: behind) :=
    splitWhile_followed (by decide)
  simp [lineComment, hfollowed, followed]

theorem blockComment_followed (h : blockComment cs = .ok s) :
    blockComment (cs ++ '\n' :: behind) = .ok (s.followed behind) := by
  unfold blockComment at h
  split at h
  · next hbody =>
    cases h
    rw [blockComment, Trivia.blockComment?_append hbody]
    rfl
  · cases h

theorem operator_followed (h : operator Punct.trie .punct c cs = .ok s) :
    operator Punct.trie .punct c (cs ++ '\n' :: behind) = .ok (s.followed behind) := by
  have hwords : ∀ word ∈ Punct.operators.words, '\n' ∉ word := by decide
  unfold operator at h
  split at h
  · next p word rest hlongest =>
    cases h
    have hfollowed : Punct.trie.longest (c :: (cs ++ '\n' :: behind)) = _ :=
      OperatorTable.longest_followed hwords hlongest
    rw [operator, hfollowed]
    rfl
  · cases h

theorem number_followed (h : number cs = .ok s) :
    number (cs ++ '\n' :: behind) = .ok (s.followed behind) := by
  obtain ⟨raw, rest, hscan, rfl⟩ := number_eq_ok.1 h
  exact number_eq_ok.2 ⟨raw, _, NumberLiteral.scan_followed hscan, rfl⟩

theorem string_followed (hc : c = '"' ∨ c = '\'') (h : string c cs = .ok s) :
    string c (cs ++ '\n' :: behind) = .ok (s.followed behind) := by
  obtain ⟨r, hscan, rfl⟩ := string_eq_ok.1 h
  exact string_eq_ok.2 ⟨_, StringLiteral.scan_append hc hscan, rfl⟩

theorem token_followed (h : token d c cs = .ok s) :
    token d c (cs ++ '\n' :: behind) = .ok (s.followed behind) := by
  unfold token tokenWith at h ⊢
  rw [NumberLiteral.starts_followed]
  split at h
  · next hc =>
    cases h
    rw [if_pos hc, privateName_followed]
  · next hsigil =>
    rw [if_neg hsigil]
    split at h
    · next hc =>
      rw [if_pos hc]
      exact string_followed (by simpa using hc) h
    · next hquote =>
      rw [if_neg hquote]
      split at h
      · next hc =>
        rw [if_pos hc]
        exact number_followed h
      · next hnumber =>
        rw [if_neg hnumber]
        split at h
        · next hc =>
          cases h
          rw [if_pos hc, ← List.cons_append, word_followed]
        · next hword =>
          rw [if_neg hword]
          exact operator_followed h

/-- A piece that is read is read in front of a line feed as well. -/
theorem next_followed (h : next d c cs = .ok s) :
    next d c (cs ++ '\n' :: behind) = .ok (s.followed behind) := by
  unfold next nextWith at h ⊢
  split at h
  · next hc =>
    cases h
    rw [if_pos hc]
    rfl
  · next hline =>
    rw [if_neg hline]
    split at h
    · next hc =>
      cases h
      rw [if_pos hc]
      rfl
    · next hblank =>
      rw [if_neg hblank]
      split at h
      · cases h
        exact congrArg Except.ok lineComment_followed
      · exact blockComment_followed h
      · next hline hblock =>
        split
        -- a comment would have begun without the line feed already
        · next heq _ =>
          cases cs with
          | nil => cases heq
          | cons x cs =>
            cases heq
            exact (hline cs rfl rfl).elim
        · next heq _ =>
          cases cs with
          | nil => cases heq
          | cons x cs =>
            cases heq
            exact (hblock cs rfl rfl).elim
        · exact token_followed h

end Scanned

end JsClass
