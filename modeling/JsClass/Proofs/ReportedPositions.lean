import JsClass.Analysis
import JsClass.Excerpt
import JsClass.Proofs.LayoutIndependence
import JsClass.Proofs.SeverityAgreement

/-!
Problems are shown where they are. A problem is reported at the place of a piece of the text, so its
line is a line of the text and its column is a column of that line, or the one behind its last
character at the end of input. The caret of an excerpt and the range of a finding point there.
-/
namespace JsClass

variable {text pre post cs line : List Char} {source : String} {pos : Position} {offset : Nat}

/-! Lines of a text. -/

theorem splitLines_ne_nil (cs : List Char) : splitLines cs ≠ [] := by
  cases cs with
  | nil => simp [splitLines]
  | cons c cs =>
    rw [splitLines]
    split
    · simp
    · split <;> simp

theorem splitLines_cons {c : Char} (hc : c ≠ '\n') (cs : List Char) :
    ∃ line lines, splitLines cs = line :: lines ∧ splitLines (c :: cs) = (c :: line) :: lines := by
  obtain ⟨line, lines, h⟩ := List.exists_cons_of_ne_nil (splitLines_ne_nil cs)
  exact ⟨line, lines, h, by rw [splitLines, if_neg hc, h]⟩

theorem splitLines_newline (cs : List Char) : splitLines ('\n' :: cs) = [] :: splitLines cs := by
  rw [splitLines, if_pos rfl]

/-- A line has no line feed in it. -/
theorem newline_notMem_line (h : line ∈ splitLines text) : '\n' ∉ line := by
  induction text generalizing line with
  | nil => simp_all [splitLines]
  | cons c cs ih =>
    by_cases hc : c = '\n'
    · rw [hc, splitLines_newline] at h
      rcases List.mem_cons.1 h with rfl | h
      · simp
      · exact ih h
    · obtain ⟨first, rest, hcs, hsplit⟩ := splitLines_cons hc cs
      rw [hsplit] at h
      rcases List.mem_cons.1 h with rfl | h
      · have := ih (hcs ▸ List.mem_cons_self)
        simp_all [eq_comm]
      · exact ih (hcs ▸ List.mem_cons_of_mem _ h)

/-- The lines from a place on: the line it stands in, of which as many characters are before it as
its column says, and the lines behind that. -/
structure Place.Splits (text : List Char) (p : Place) (before line : List Char)
    (lines : List (List Char)) : Prop where
  line_pos : 1 ≤ p.line
  col : p.col = before.length + 1
  lines : (splitLines text).drop (p.line - 1).toNat = (before ++ line) :: lines

theorem Place.splits_next {p : Place} {c : Char} {before line : List Char}
    {lines : List (List Char)} (h : p.Splits text before line lines)
    (hpost : splitLines (c :: post) = line :: lines) :
    ∃ before line lines, splitLines post = line :: lines ∧
      (p.next c).Splits text before line lines := by
  have hpos := h.line_pos
  by_cases hc : c = '\n'
  · subst hc
    rw [splitLines_newline, List.cons.injEq] at hpost
    obtain ⟨rfl, hlines⟩ := hpost
    obtain ⟨line, rest, hrest⟩ := List.exists_cons_of_ne_nil (splitLines_ne_nil post)
    refine ⟨[], line, rest, hrest, ?_, rfl, ?_⟩
    · show 1 ≤ p.line + 1
      omega
    · have hnext : (p.line + 1 - 1).toNat = (p.line - 1).toNat + 1 := by omega
      show (splitLines text).drop (p.line + 1 - 1).toNat = _
      rw [hnext, ← List.tail_drop, h.lines, List.tail_cons, ← hlines, hrest]
      rfl
  · obtain ⟨line', lines', hrest, hsplit⟩ := splitLines_cons hc post
    rw [hsplit, List.cons.injEq] at hpost
    obtain ⟨rfl, rfl⟩ := hpost
    refine ⟨before ++ [c], line', lines', hrest, ?_⟩
    rw [next, if_neg hc]
    refine ⟨hpos, ?_, ?_⟩
    · simp [h.col]
    · simpa using h.lines

/-- Every place of a text splits its lines, and behind it are the lines of the rest. -/
theorem Place.splits_after (pre post : List Char) : ∃ before line lines,
    splitLines post = line :: lines ∧ (start.after pre).Splits (pre ++ post) before line lines := by
  induction pre using List.reverseRecOn generalizing post with
  | nil =>
    obtain ⟨line, lines, h⟩ := List.exists_cons_of_ne_nil (splitLines_ne_nil post)
    exact ⟨[], line, lines, h, Int.le_refl 1, rfl, h⟩
  | append_singleton pre c ih =>
    obtain ⟨before, line, lines, hpost, hsplits⟩ := ih (c :: post)
    rw [after_append, List.append_assoc]
    exact splits_next hsplits hpost

/-! Positions of pieces. -/

/-- The position is behind the first characters of the text, as many as the offset says, and not
before a line feed. -/
structure Position.IsAt (text : List Char) (offset : Nat) (pos : Position) : Prop where
  le : offset ≤ text.length
  pos : (Place.start.after (text.take offset)).toPosition = pos
  character : text[offset]? ≠ some '\n'

theorem Position.isAt_after (h : post.head? ≠ some '\n') :
    (Place.start.after pre).toPosition.IsAt (pre ++ post) pre.length := by
  refine ⟨by simp, by rw [List.take_left], ?_⟩
  rwa [List.getElem?_append_right (Nat.le_refl _), Nat.sub_self, ← List.head?_eq_getElem?]

/-- A line feed is skipped. -/
theorem Scanned.next_newline (d : Dialect) (cs : List Char) :
    next d '\n' cs = .ok ⟨.trivia true, ['\n'], cs⟩ := by
  unfold next nextWith
  rw [if_pos (by decide)]

namespace TokenStream

variable {d : Dialect} {fuel : Nat} {newline : Bool} {s : TokenStream}

/-- What a scanner names is in the text, whether it succeeds or not. -/
def Names (text : List Char) : Except LexicalError TokenStream → Prop
  | .ok s => ∀ t ∈ s.toList, ∃ offset, t.pos.IsAt text offset
  | .error e => ∃ offset, e.pos.IsAt text offset

/-- A token in front of those of a scan. -/
theorem Names.cons {text : List Char} {x : Except LexicalError TokenStream} {t : Token}
    {offset : Nat} (ht : t.pos.IsAt text offset) (h : Names text x) :
    Names text (do let s ← x; return { s with tokens := t :: s.tokens }) := by
  cases x with
  | error e => exact h
  | ok s => exact List.forall_mem_cons.2 ⟨⟨offset, ht⟩, h⟩

theorem scan_names (hfuel : cs.length ≤ fuel) :
    Names (pre ++ cs) (scan d fuel (Place.start.after pre) newline cs) := by
  induction fuel generalizing pre newline cs with
  | zero =>
    obtain rfl := List.length_eq_zero_iff.1 (Nat.le_zero.1 hfuel)
    intro t ht
    obtain rfl := List.mem_singleton.1 ht
    exact ⟨_, Position.isAt_after (by simp)⟩
  | succ fuel ih =>
    cases cs with
    | nil =>
      intro t ht
      obtain rfl := List.mem_singleton.1 ht
      exact ⟨_, Position.isAt_after (by simp)⟩
    | cons c cs =>
      have hhere : c ≠ '\n' → (Place.start.after pre).toPosition.IsAt (pre ++ c :: cs) pre.length :=
        fun hc => Position.isAt_after (by simpa)
      rw [scan_cons]
      cases hnext : Scanned.next d c cs with
      | error fault =>
        refine ⟨_, hhere ?_⟩
        rintro rfl
        cases hnext.symm.trans (Scanned.next_newline d cs)
      | ok scanned =>
        obtain ⟨piece, spelling, rest⟩ := scanned
        have hsplit : spelling ++ rest = c :: cs := (Scanned.next_splits hnext).1
        have hrest : rest.length ≤ fuel :=
          Nat.le_trans (Scanned.next_shorter hnext) (Nat.le_of_succ_le_succ hfuel)
        have hlater (newline : Bool) : Names (pre ++ c :: cs)
            (scan d fuel ((Place.start.after pre).after spelling) newline rest) := by
          rw [← hsplit, ← List.append_assoc, ← Place.after_append]
          exact ih hrest
        cases piece with
        | trivia breaksLine => exact hlater _
        | token kind =>
          have hc : c ≠ '\n' := by
            rintro rfl
            cases hnext.symm.trans (Scanned.next_newline d cs)
          exact (hlater false).cons (hhere hc)

theorem ofString_names (d : Dialect) (source : String) :
    Names source.toList (ofString d source) := by
  show Names ([] ++ source.toList) (scan d _ (Place.start.after []) false source.toList)
  exact scan_names (Nat.le_refl _)

theorem tokenize_names (hs : tokenize d source = .ok s) {t : Token} (ht : t ∈ s.toList) :
    ∃ offset, t.pos.IsAt source.toList offset := by
  have hnames := ofString_names d source
  unfold tokenize at hs
  cases hstream : ofString d source with
  | error e => simp [hstream, Except.mapError] at hs
  | ok stream =>
    simp only [hstream, Except.mapError, Except.ok.injEq] at hs
    subst hs
    rw [hstream] at hnames
    exact hnames t ht

theorem tokenize_error_names {cause : LexicalCause}
    (h : tokenize d source = .error (.lexical cause pos)) :
    ∃ offset, pos.IsAt source.toList offset := by
  have hnames := ofString_names d source
  unfold tokenize at h
  cases hstream : ofString d source with
  | error e =>
    obtain ⟨fault, here⟩ := e
    rw [hstream] at hnames
    cases fault <;> simp_all [Except.mapError, Failure.ofLexical, Names]
  | ok stream => simp [hstream, Except.mapError] at h

/-- The rules report their problems at tokens. -/
theorem statements_at_tokens {tree : Dialect} {options : Options} (hs : tokenize d source = .ok s) :
    (∀ x ∈ (s.statements tree options).state.reported, ∃ t ∈ s.toList, t.pos = x.pos) ∧
      ∀ x u, s.statements tree options = .error (.rejected x) u →
        ∃ t ∈ s.toList, t.pos = x.pos := by
  have hsorted := (covers_of_tokenize hs).pairwise_lt
  have hrun := (Alignment.byNumber hsorted hsorted rfl).statements tree options ⟨0, rfl, rfl⟩
    (tokens_alike hsorted hsorted rfl).2 fun _ _ _ h => Or.inl h
  have hat : ∀ {p}, Corresponds s.toList s.toList p p → ∃ t ∈ s.toList, t.pos = p := by
    rintro p ⟨i, t, -, ht, -, hpos, -⟩
    exact ⟨t, List.mem_of_getElem? ht, hpos⟩
  generalize s.statements tree options = r at hrun
  cases hrun with
  | ok _ hstate =>
    exact ⟨fun x hx => hat (List.forall₂_same.1 hstate.reported x hx).pos, nofun⟩
  | error hfault hstate =>
    refine ⟨fun x hx => hat (List.forall₂_same.1 hstate.reported x hx).pos, ?_⟩
    rintro x u h
    cases h
    cases hfault with
    | rejected hx => exact hat hx.pos

end TokenStream

/-- Where a problem of a text is reported: one that ends reading, or one that is recorded. -/
inductive ReportedAt (tokens tree : Dialect) (options : Options) (source : String) :
    Position → Prop
  | lexical {cause : LexicalCause} {pos : Position}
    (h : tokenize tokens source = .error (.lexical cause pos)) :
    ReportedAt tokens tree options source pos
  | rejected {s : TokenStream} {x : Diagnostic} {t : State} (hs : tokenize tokens source = .ok s)
    (h : s.statements tree options = .error (.rejected x) t) :
    ReportedAt tokens tree options source x.pos
  | recorded {s : TokenStream} {x : Diagnostic} (hs : tokenize tokens source = .ok s)
    (h : x ∈ (s.statements tree options).state.reported) :
    ReportedAt tokens tree options source x.pos

theorem ReportedAt.isAt {tokens tree : Dialect} {options : Options}
    (h : ReportedAt tokens tree options source pos) : ∃ offset, pos.IsAt source.toList offset := by
  cases h with
  | lexical h => exact TokenStream.tokenize_error_names h
  | rejected hs h =>
    obtain ⟨t, ht, hpos⟩ := (TokenStream.statements_at_tokens hs).2 _ _ h
    exact hpos ▸ TokenStream.tokenize_names hs ht
  | recorded hs h =>
    obtain ⟨t, ht, hpos⟩ := (TokenStream.statements_at_tokens hs).1 _ h
    exact hpos ▸ TokenStream.tokenize_names hs ht

/-! What is shown. -/

/-- The line and the column of a position in a text. The column is that of the character at the
offset; at the end of the text, and only there, it is the one behind the line. -/
structure Position.Inside (text : List Char) (offset : Nat) (row : List Char) (pos : Position) :
    Prop where
  line_bounds : 1 ≤ pos.line ∧ pos.line ≤ (splitLines text).length
  found : (splitLines text)[(pos.line - 1).toNat]? = some row
  col_bounds : 1 ≤ pos.col ∧ pos.col ≤ row.length + 1
  character : row[(pos.col - 1).toNat]? = text[offset]?
  finish : pos.col = row.length + 1 ↔ offset = text.length

theorem Position.IsAt.inside (h : pos.IsAt text offset) : ∃ line, pos.Inside text offset line := by
  obtain ⟨before, rest, lines, hrest, hsplits⟩ :=
    Place.splits_after (text.take offset) (text.drop offset)
  rw [List.take_append_drop] at hsplits
  have hline : 1 ≤ pos.line := h.pos ▸ hsplits.line_pos
  have hcol : pos.col = before.length + 1 := h.pos ▸ hsplits.col
  have hlines : (splitLines text).drop (pos.line - 1).toNat = (before ++ rest) :: lines :=
    h.pos ▸ hsplits.lines
  have hlength := congrArg List.length hlines
  simp only [List.length_drop, List.length_cons] at hlength
  -- The rest of the line begins with the character at the offset, which ends no line.
  have hhead : rest[0]? = text[offset]? := by
    rw [← Nat.add_zero offset, ← List.getElem?_drop]
    have hnewline := h.character
    rw [← Nat.add_zero offset, ← List.getElem?_drop] at hnewline
    cases hdrop : text.drop offset with
    | nil => simp_all [splitLines]
    | cons c post =>
      rw [hdrop] at hrest hnewline
      obtain ⟨_, _, -, hsplit⟩ := splitLines_cons (c := c) (by simpa using hnewline) post
      rw [hsplit, List.cons.injEq] at hrest
      simp [← hrest.1]
  refine ⟨before ++ rest, ⟨hline, by omega⟩, ?_, ?_, ?_, ?_⟩
  · rw [← Nat.add_zero (pos.line - 1).toNat, ← List.getElem?_drop, hlines]
    rfl
  · simp only [List.length_append]
    omega
  · have hindex : (pos.col - 1).toNat = before.length := by omega
    rw [hindex, List.getElem?_append_right (Nat.le_refl _), Nat.sub_self, hhead]
  · have hle := h.le
    have hend : rest.length = 0 ↔ text.length ≤ offset := by
      rw [← List.getElem?_eq_none_iff, ← hhead, List.getElem?_eq_none_iff, Nat.le_zero]
    simp only [List.length_append]
    omega

/-- A number that counts something is written in digits. -/
theorem newline_notMem_toString {n : Int} (hn : 0 ≤ n) : '\n' ∉ (toString n).toList := by
  obtain ⟨k, rfl⟩ := Int.eq_ofNat_of_zero_le hn
  intro h
  have hdigit := Nat.isDigit_of_mem_toDigits (by decide) (by decide) (Nat.toList_repr ▸ h)
  exact absurd hdigit (by decide)

namespace Excerpt

/-- What stands before the line of source. -/
def gutter (e : Excerpt) : List Char := ' ' :: (toString e.pos.line).toList ++ [' ', '|', ' ']

/-- What stands before the caret: blanks below the number of the line, and then up to the column. -/
def margin (e : Excerpt) : List Char :=
  ' ' :: List.replicate (toString e.pos.line).length ' ' ++ [' ', '|', ' '] ++
    List.replicate (e.pos.col - 1).toNat ' '

theorem length_margin (e : Excerpt) :
    e.margin.length = e.gutter.length + (e.pos.col - 1).toNat := by
  simp [margin, gutter, String.length_toList]
  omega

theorem render_of_sourceLine {e : Excerpt} (h : e.sourceLine? source = some line) :
    ∃ header, e.render source =
      header ++ Text.ofChars ('\n' :: e.gutter ++ line ++ '\n' :: e.margin ++ ['^']) := by
  have htext (a : String) : toString a = a := rfl
  let pad := List.replicate (toString e.pos.line).length ' '
  refine ⟨e.heading ++ Text.ofChars (('\n' :: ' ' :: pad) ++ "--> ".toList ++ e.location.toList ++
    ('\n' :: ' ' :: pad) ++ [' ', '|']), ?_⟩
  simp [render, h, htext, gutter, margin, pad, Text.ofString, Text.ofChars]

/-- An excerpt ends with a line of source and a caret below the character at the offset. Where there
is no such character, the caret is just behind the line. -/
structure PointsAt (e : Excerpt) (source : String) (offset : Nat) (line : List Char) : Prop where
  render : ∃ header, e.render source =
    header ++ Text.ofChars ('\n' :: e.gutter ++ line ++ '\n' :: e.margin ++ ['^'])
  unbroken : '\n' ∉ e.gutter ++ line ∧ '\n' ∉ e.margin
  below : e.margin.length ≤ (e.gutter ++ line).length
  character : (e.gutter ++ line)[e.margin.length]? = source.toList[offset]?

theorem pointsAt {e : Excerpt} (h : e.pos.Inside source.toList offset line) :
    e.PointsAt source offset line := by
  have hline := h.line_bounds.1
  have hcol := h.col_bounds
  refine ⟨render_of_sourceLine ?_, ?_, ?_, ?_⟩
  · rw [sourceLine?, if_neg (by omega), h.found]
  · have hnumber := newline_notMem_toString (n := e.pos.line) (by omega)
    have hfree := newline_notMem_line (List.mem_of_getElem? h.found)
    simp_all [gutter, margin]
  · rw [length_margin, List.length_append]
    omega
  · rw [length_margin, List.getElem?_append_right (by omega), Nat.add_sub_cancel_left, h.character]

end Excerpt

/-- The range of a finding starts at its position, which needs no correction. -/
theorem Position.Inside.finding (h : pos.Inside text offset line) (message : Text)
    (severity : Severity) :
    Finding.ofPosition pos message severity = ⟨pos.line - 1, pos.col - 1, message, severity⟩ := by
  have := h.line_bounds.1
  have := h.col_bounds.1
  rw [Finding.ofPosition, Int.max_eq_right (by omega), Int.max_eq_right (by omega)]

/-- Every problem is reported at a position in the text. The caret of an excerpt stands below the
character at this position, or behind the last line at the end of the text, and a finding is at the
same place, counted from zero. -/
theorem reported_positions_inside {tokens tree : Dialect} {options : Options}
    (h : ReportedAt tokens tree options source pos) :
    ∃ offset line, offset ≤ source.toList.length ∧
      (Place.start.after (source.toList.take offset)).toPosition = pos ∧
      pos.Inside source.toList offset line ∧
      (∀ level message file, Excerpt.PointsAt ⟨level, message, file, pos⟩ source offset line) ∧
      ∀ message severity, Finding.ofPosition pos message severity =
        ⟨pos.line - 1, pos.col - 1, message, severity⟩ := by
  obtain ⟨offset, hat⟩ := h.isAt
  obtain ⟨line, hinside⟩ := hat.inside
  exact ⟨offset, line, hat.le, hat.pos, hinside, fun _ _ _ => Excerpt.pointsAt hinside,
    hinside.finding⟩

/-- A class that is never closed, with a setter that has no parameter. -/
def openText : String := "class A \x7b\n  set a() \x7b\x7d"

theorem openText_positions :
    (ReportedAt .withPrivate .withPrivate .default openText ⟨2, 8⟩ ∧
      ∃ offset line, Position.Inside openText.toList offset line ⟨2, 8⟩) ∧
    ReportedAt .withPrivate .withPrivate .default openText ⟨2, 13⟩ ∧
      ∃ offset line, Position.Inside openText.toList offset line ⟨2, 13⟩ := by
  have hread : (tokenize .withPrivate openText).toOption.map (fun s =>
      let reply := s.statements .withPrivate .default
      (reply.fault?, reply.state.reported)) =
      some (some (.rejected ⟨.unexpectedEnd, ⟨2, 13⟩⟩), [⟨.setterArity, ⟨2, 8⟩⟩]) := by
    decide +kernel
  have hreported : ReportedAt .withPrivate .withPrivate .default openText ⟨2, 8⟩ ∧
      ReportedAt .withPrivate .withPrivate .default openText ⟨2, 13⟩ := by
    cases hs : tokenize .withPrivate openText with
    | error e => simp [hs, Except.toOption] at hread
    | ok s =>
      simp only [hs, Except.toOption, Option.map_some, Option.some.injEq, Prod.mk.injEq] at hread
      obtain ⟨hfault, hrecorded⟩ := hread
      refine ⟨.recorded (x := ⟨.setterArity, ⟨2, 8⟩⟩) hs (by simp [hrecorded]), ?_⟩
      cases hrun : s.statements .withPrivate .default with
      | ok body t => simp [hrun, Reply.fault?] at hfault
      | error fault t =>
        obtain rfl : fault = .rejected ⟨.unexpectedEnd, ⟨2, 13⟩⟩ := by
          simpa [hrun, Reply.fault?] using hfault
        exact .rejected hs hrun
  obtain ⟨offset, line, -, -, hinside, -⟩ := reported_positions_inside hreported.1
  obtain ⟨offset', line', -, -, hinside', -⟩ := reported_positions_inside hreported.2
  exact ⟨⟨hreported.1, offset, line, hinside⟩, hreported.2, offset', line', hinside'⟩

end JsClass
