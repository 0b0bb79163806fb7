import JsClass.Proofs.Grammar.Success
import JsClass.Proofs.TokenCover

/-!
Which tokens are marked as standing behind a line break. Blanks and comments are told apart here:
the two Unicode separators break a line as blanks, and do not in a comment.
-/
namespace JsClass

variable {text pre cs : List Char} {s : TokenStream} {d : Dialect}

namespace Trivia

variable {c : Char} {behind rest gap blanks : List Char}

/-- A text is blanks, line comments and closed block comments, in front of another text. The second
list has the blanks, without what the comments hold. -/
inductive Fills (behind : List Char) : List Char → List Char → Prop where
  | done : Fills behind [] []
  | blank {c : Char} {gap blanks : List Char} (hc : Text.isBlank c) (h : Fills behind gap blanks) :
    Fills behind (c :: gap) (c :: blanks)
  | lineComment {body gap blanks : List Char} (hbody : ∀ c ∈ body, Text.isLineEnd c = false)
    (hend : ∀ c ∈ (gap ++ behind).head?, Text.isLineEnd c) (h : Fills behind gap blanks) :
    Fills behind ('/' :: '/' :: body ++ gap) blanks
  | blockComment {body gap blanks : List Char} (hbody : ¬ ['*', '/'] <:+: body ++ ['*'])
    (h : Fills behind gap blanks) : Fills behind ('/' :: '*' :: body ++ '*' :: '/' :: gap) blanks

/-- A line is broken by a line feed or a carriage return, wherever it stands, and by any line
terminator among the blanks. -/
def BreaksLine (gap blanks : List Char) : Prop :=
  (∃ c ∈ gap, Text.isLineEnd c) ∨ ∃ c ∈ blanks, Text.isLineTerminator c

theorem breaksLine_append {gap' blanks' : List Char} :
    BreaksLine (gap ++ gap') (blanks ++ blanks') ↔
      BreaksLine gap blanks ∨ BreaksLine gap' blanks' := by
  simp only [BreaksLine, List.mem_append, or_and_right, exists_or]
  exact or_or_or_comm

theorem breaksLine_nil : BreaksLine gap [] ↔ gap.any Text.isLineEnd := by
  simp [BreaksLine]

theorem isLineTerminator_of_isLineEnd (h : Text.isLineEnd c) : Text.isLineTerminator c := by
  rw [Text.isLineEnd] at h
  simp [Text.isLineTerminator, h]

/-- A bit of trivia that is read says of itself whether it breaks the line. -/
theorem Fills.of_next {breaksLine : Bool} {spelling : List Char}
    (h : Scanned.next d c cs = .ok ⟨.trivia breaksLine, spelling, rest⟩)
    (hgap : Fills behind gap blanks) (hrest : gap ++ behind = rest) :
    ∃ passed, Fills behind (spelling ++ gap) (passed ++ blanks) ∧
      (breaksLine ↔ BreaksLine spelling passed) := by
  unfold Scanned.next Scanned.nextWith at h
  split at h
  · next hc =>
    cases h
    exact ⟨[c], .blank (isBlank_of_isLineTerminator hc) hgap, by simp [BreaksLine, hc]⟩
  · next hline =>
    split at h
    · next hc =>
      cases h
      have hend : Text.isLineEnd c = false :=
        Bool.eq_false_iff.2 fun hend => hline (isLineTerminator_of_isLineEnd hend)
      exact ⟨[c], .blank hc hgap, by simp [BreaksLine, hline, hend]⟩
    · split at h
      · next text _ =>
        cases h
        have hbody : ∀ x ∈ text.takeWhile (!Text.isLineEnd ·), Text.isLineEnd x = false := by
          intro x hx
          simpa using List.all_eq_true.1 List.all_takeWhile x hx
        refine ⟨[], .lineComment hbody ?_ hgap, ?_⟩
        · intro x hx
          rw [hrest] at hx
          simpa using Scanned.head?_splitWhile hx
        · have hslash : Text.isLineEnd '/' = false := rfl
          simpa [breaksLine_nil, hslash] using hbody
      · unfold Scanned.blockComment at h
        split at h
        · next hb =>
          cases h
          obtain ⟨inner, rfl, hinner⟩ := blockComment?_eq_some hb
          refine ⟨[], ?_, ?_⟩
          · simpa using Fills.blockComment hinner hgap
          · have hslash : Text.isLineEnd '/' = false := rfl
            have hstar : Text.isLineEnd '*' = false := rfl
            simp [breaksLine_nil, hslash, hstar]
        · cases h
      · exact absurd h token_ne_trivia

end Trivia

/-- A token stands behind the trivia from an offset on, and is marked just when that breaks a
line. -/
structure Token.Separated (text : List Char) (start : Nat) (t : Token) : Prop where
  le : start ≤ t.place.offset
  marked : ∃ blanks,
    Trivia.Fills (text.drop t.place.offset) ((text.take t.place.offset).drop start) blanks ∧
    (t.newlineBefore ↔ Trivia.BreaksLine ((text.take t.place.offset).drop start) blanks)

/-- A token with no trivia before it is not marked. -/
theorem Token.Separated.adjacent (kind : Kind) (place : Place) (text : List Char) :
    (⟨kind, place, false⟩ : Token).Separated text place.offset := by
  refine ⟨Nat.le_refl _, [], ?_, ?_⟩
  · simpa using Trivia.Fills.done
  · simp [Trivia.BreaksLine]

/-- A bit of trivia at the front of a gap adds to its mark. -/
theorem Token.Separated.trivia {t : Token} {c : Char} {spelling rest : List Char}
    {breaksLine : Bool} (h : t.Separated (pre ++ spelling ++ rest) (pre.length + spelling.length))
    (hnext : Scanned.next d c cs = .ok ⟨.trivia breaksLine, spelling, rest⟩) :
    Token.Separated (pre ++ spelling ++ rest) pre.length
      { t with newlineBefore := breaksLine || t.newlineBefore } := by
  obtain ⟨hle, blanks, hfills, hmark⟩ := h
  obtain ⟨length, hlength⟩ := Nat.exists_eq_add_of_le hle
  have htake : (pre ++ spelling ++ rest).take t.place.offset =
      pre ++ spelling ++ rest.take length := by
    rw [hlength, ← List.length_append, List.take_length_add_append]
  have hdrop : (pre ++ spelling ++ rest).drop t.place.offset = rest.drop length := by
    rw [hlength, ← List.length_append, List.drop_length_add_append]
  rw [htake, ← List.length_append, List.drop_left] at hfills hmark
  rw [hdrop] at hfills
  obtain ⟨passed, hpassed, hbreaks⟩ := hfills.of_next hnext (List.take_append_drop length rest)
  refine ⟨Nat.le_trans (Nat.le_add_right _ _) hle, passed ++ blanks, ?_, ?_⟩
  · rwa [htake, hdrop, List.append_assoc, List.drop_left]
  · rw [htake, List.append_assoc, List.drop_left, Trivia.breaksLine_append, ← hbreaks, ← hmark]
    simp

namespace TokenStream

/-- The gaps of a scanned text, the first of which may have begun with a line break. -/
theorem Scans.separated {newline : Bool} (h : Scans d pre newline cs s) :
    ∃ first later stops,
      s.toList = { first with newlineBefore := newline || first.newlineBefore } :: later ∧
      List.Forall₂ (Token.Spans (pre ++ cs)) s.tokens stops ∧
      List.Forall₂ (Token.Separated (pre ++ cs)) (pre.length :: stops) (first :: later) := by
  induction h with
  | done pre newline =>
    have hadjacent := Token.Separated.adjacent .eof (Place.start.after pre) (pre ++ [])
    rw [offset_after] at hadjacent
    exact ⟨_, [], [], by simp [toList], .nil, .cons hadjacent .nil⟩
  | @trivia pre newline breaksLine c cs spelling rest s hsplit hnext h ih =>
    obtain ⟨first, later, stops, hlist, hspans, hgaps⟩ := ih
    rw [List.length_append] at hgaps
    have htext : (pre ++ spelling) ++ rest = pre ++ c :: cs := by rw [List.append_assoc, hsplit]
    rw [← htext]
    cases hgaps with
    | cons hfirst hlater =>
      refine ⟨_, later, stops, ?_, hspans, .cons (hfirst.trivia hnext) hlater⟩
      rw [hlist, Bool.or_assoc]
  | @token pre newline c cs spelling rest kind s hsplit hnext h ih =>
    obtain ⟨first, others, stops, hlist, hspans, hgaps⟩ := ih
    rw [List.append_assoc, hsplit] at hspans hgaps
    rw [List.length_append] at hgaps
    refine ⟨⟨kind, Place.start.after pre, false⟩, first :: others,
      (pre.length + spelling.length) :: stops, ?_, ?_, ?_⟩
    · simpa [toList] using hlist
    · have hspan : (⟨kind, Place.start.after pre, newline⟩ : Token).Spans (pre ++ c :: cs)
          (pre.length + spelling.length) := spans_of_next hnext
      exact .cons hspan hspans
    · have hadjacent := Token.Separated.adjacent kind (Place.start.after pre) (pre ++ c :: cs)
      rw [offset_after] at hadjacent
      exact .cons hadjacent hgaps

end TokenStream

/-- Every token, the end of input too, is marked just when the text between the token before it and
itself breaks a line: by a line feed or a carriage return, in a comment or not, or by a Unicode
separator outside comments. -/
theorem newlines_marked (d : Dialect) (source : String) (s : TokenStream)
    (h : tokenize d source = .ok s) :
    ∃ stops, List.Forall₂ (Token.Spans source.toList) s.tokens stops ∧
      List.Forall₂ (Token.Separated source.toList) (0 :: stops) s.toList := by
  obtain ⟨first, later, stops, hlist, hspans, hgaps⟩ :=
    (TokenStream.scans_of_tokenize h).separated
  exact ⟨stops, hspans, by rwa [hlist]⟩

/-- A separator between the tokens, one in each kind of comment, and a line feed in a comment. -/
def separatedText : String := "a\u2028b /*\u2029*/ c //\u2028\nd /*\n*/ e //\u2028"

theorem separatedText_marked : ∃ s stops, tokenize .withPrivate separatedText = .ok s ∧
    s.toList.map (·.newlineBefore) = [false, true, false, true, true, false] ∧
    List.Forall₂ (Token.Separated separatedText.toList) (0 :: stops) s.toList := by
  have hread : ((tokenize .withPrivate separatedText).toOption.map fun s =>
      s.toList.map (·.newlineBefore)) = some [false, true, false, true, true, false] := by
    decide +kernel
  obtain ⟨s, hs, hmarks⟩ := exists_of_toOption hread
  obtain ⟨stops, -, hgaps⟩ := newlines_marked .withPrivate separatedText s hs
  exact ⟨s, stops, hs, hmarks, hgaps⟩

/-- Names with nothing but a separator in a block comment between them. -/
def joinedText : String := "a/*\u2028*/b"

/-- The mark is not that any of the four line terminators stands before a token. -/
theorem newlines_unmarked_in_comments :
    ¬ ∀ d source s, tokenize d source = .ok s →
      ∃ stops, List.Forall₂ (Token.Spans source.toList) s.tokens stops ∧
        List.Forall₂ (fun start t => t.newlineBefore ↔
          ∃ c ∈ (source.toList.take t.place.offset).drop start, Text.isLineTerminator c)
          (0 :: stops) s.toList := by
  intro h
  have hread : (tokenize .withPrivate joinedText).toOption.map id =
      some ⟨[⟨.name "a", ⟨⟨1, 1⟩, 0⟩, false⟩, ⟨.name "b", ⟨⟨1, 7⟩, 6⟩, false⟩],
        ⟨.eof, ⟨⟨1, 8⟩, 7⟩, false⟩⟩ := by
    decide +kernel
  obtain ⟨_, hs, rfl⟩ := exists_of_toOption hread
  obtain ⟨_, hspans, hmarks⟩ := h .withPrivate joinedText _ hs
  obtain _ | ⟨hspan, -⟩ := hspans
  obtain _ | ⟨-, hmarks⟩ := hmarks
  obtain _ | ⟨hmark, -⟩ := hmarks
  next stop _ =>
  -- the first name is one character long, so that the gap begins behind it
  have hlength : (joinedText.toList.take stop).length = 1 := congrArg List.length hspan.spelling
  have hstop : stop = 1 := by
    have hinside := hspan.inside
    rw [List.length_take] at hlength
    omega
  subst hstop
  exact absurd (hmark.2 ⟨'\u2028', by decide, rfl⟩) (by decide)

end JsClass
