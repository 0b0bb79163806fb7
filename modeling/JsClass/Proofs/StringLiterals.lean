import JsClass.Proofs.Grammar.Success
import JsClass.Proofs.Token.Escapes
import JsClass.Proofs.TokenCover

/-!
What a string literal denotes: the texts that its segments denote, one behind the other. Of the
texts in the braces of an escape the scanner reads more than it should, and nothing else.
-/
namespace JsClass

namespace StringLiteral

variable {braced braced' : List Char → Nat → Prop} {quote : Char} {fuel : Nat} {cs rest : List Char}
  {segment : List Char × Text} {segments : List (List Char × Text)} {s : Segment}

/-! The spelling of a literal. -/

/-- What stands behind the opening quote. -/
def spelling (quote : Char) (segments : List (List Char × Text)) : List Char :=
  segments.flatMap (·.1) ++ [quote]

def meaning (segments : List (List Char × Text)) : Text := segments.flatMap (·.2)

theorem Escape.imp (himp : ∀ ds n, braced ds n → braced' ds n) {text : List Char} {denoted : Text}
    (h : Escape braced text denoted) : Escape braced' text denoted := by
  cases h with
  | control h => exact .control h
  | nul => exact .nul
  | fixed h hlength hds => exact .fixed h hlength hds
  | braced h => exact .braced (himp _ _ h)
  | continuation h => exact .continuation h
  | other hcontrol hfixed hend hdigit => exact .other hcontrol hfixed hend hdigit

theorem Segmented.imp (himp : ∀ ds n, braced ds n → braced' ds n)
    (h : Segmented braced quote segments) : Segmented braced' quote segments := by
  refine ⟨fun s hs => ?_, h.apart⟩
  cases h.forms s hs with
  | plain hquote hescape hend => exact .plain hquote hescape hend
  | escape h => exact .escape (h.imp himp)

theorem IsSegment.starts (h : IsSegment braced quote segment) :
    ∃ c cs, segment.1 = c :: cs ∧ c ≠ '\n' := by
  cases h with
  | plain _ _ hend => exact ⟨_, _, rfl, hend.1⟩
  | escape => exact ⟨_, _, rfl, by decide⟩

theorem spelling_cons : spelling quote (segment :: segments) =
    segment.1 ++ spelling quote segments := by
  simp [spelling]

theorem meaning_cons : meaning (segment :: segments) =
    segment.2 ++ meaning segments := List.flatMap_cons

theorem Segmented.nil : Segmented braced quote [] := ⟨by simp, .nil⟩

theorem Segmented.cons (hs : IsSegment braced quote segment) (h : Segmented braced quote segments)
    (hdigit : segment.1 = ['\\', '0'] →
      ∀ c ∈ (spelling quote segments).head?, Text.isDigit c = false) :
    Segmented braced quote (segment :: segments) := by
  refine ⟨List.forall_mem_cons.2 ⟨hs, h.forms⟩, ?_⟩
  cases segments with
  | nil => exact .singleton _
  | cons next segments =>
    refine List.isChain_cons_cons.2 ⟨fun hnul c hc => hdigit hnul c ?_, h.apart⟩
    rw [spelling_cons, List.head?_append, hc]
    rfl

theorem Segmented.tail (h : Segmented braced quote (segment :: segments)) :
    Segmented braced quote segments :=
  ⟨(List.forall_mem_cons.1 h.forms).2, h.apart.tail⟩

/-- No line feed stands behind a segment, and no digit behind the escape of the null character. -/
theorem Segmented.behind (hquote : quote = '"' ∨ quote = '\'')
    (h : Segmented braced quote (segment :: segments)) :
    ∀ c ∈ (spelling quote segments ++ rest).head?,
      c ≠ '\n' ∧ (segment.1 = ['\\', '0'] → Text.isDigit c = false) := by
  cases segments with
  | nil =>
    have hplain : quote ≠ '\n' ∧ Text.isDigit quote = false := by
      rcases hquote with rfl | rfl <;> decide
    rintro _ ⟨⟩
    exact ⟨hplain.1, fun _ => hplain.2⟩
  | cons next segments =>
    obtain ⟨hdigit, -⟩ := List.isChain_cons_cons.1 h.apart
    obtain ⟨first, text, hnext, hfeed⟩ := (h.tail.forms next List.mem_cons_self).starts
    intro c hc
    rw [spelling_cons, hnext] at hc
    cases hc
    exact ⟨hfeed, fun hnul => hdigit hnul first (by rw [hnext]; rfl)⟩

/-! Reading. -/

theorem body_close : body quote (fuel + 1) (quote :: cs) = .ok ⟨[quote], [], cs⟩ := by
  simp [body, pure, Except.pure]

theorem body_plain {c : Char} (hquote : c ≠ quote) (hescape : c ≠ '\\')
    (hend : Text.isLineEnd c = false) : body quote (fuel + 1) (c :: cs) = do
      let r ← body quote fuel cs
      return ⟨c :: r.spelling, .ofChar c :: r.value, r.rest⟩ := by
  simp [body, hquote, hescape, hend]

theorem body_escape (hquote : quote = '"' ∨ quote = '\'') :
    body quote (fuel + 1) ('\\' :: cs) = do
      let s ← escape cs
      let r ← body quote fuel s.rest
      return ⟨'\\' :: s.spelling ++ r.spelling, s.value ++ r.value, r.rest⟩ := by
  have hne : ('\\' == quote) = false := by rcases hquote with rfl | rfl <;> decide
  simp [body, hne]

/-- The segments of a literal are read as the texts that they denote. -/
theorem body_read (hquote : quote = '"' ∨ quote = '\'') (h : Segmented Readable quote segments)
    (hfuel : (spelling quote segments).length ≤ fuel) :
    body quote fuel (spelling quote segments ++ rest) =
      .ok ⟨spelling quote segments, meaning segments, rest⟩ := by
  induction segments generalizing fuel with
  | nil =>
    obtain ⟨fuel, rfl⟩ := Nat.exists_eq_add_of_le' hfuel
    exact body_close
  | cons segment segments ih =>
    have hform := h.forms segment List.mem_cons_self
    rw [spelling_cons, List.length_append] at hfuel
    rw [spelling_cons, meaning_cons, List.append_assoc]
    obtain ⟨first, text, hfirst, -⟩ := hform.starts
    obtain _ | fuel := fuel
    · simp [hfirst] at hfuel
    have hlater : body quote fuel (spelling quote segments ++ rest) = _ := ih h.tail (by
      rw [hfirst, List.length_cons] at hfuel
      omega)
    cases hform with
    | @plain c hc hescape hend =>
      have hend : Text.isLineEnd c = false := by simp [Text.isLineEnd, hend]
      rw [List.singleton_append, body_plain hc hescape hend, hlater]
      rfl
    | @escape text denoted he =>
      have hbehind : ∀ c ∈ (spelling quote segments ++ rest).head?, _ := h.behind hquote
      have hescape : escape (text ++ (spelling quote segments ++ rest)) = _ :=
        escape_read he (fun c hc => (hbehind c hc).1) fun hnul c hc =>
          (hbehind c hc).2 (congrArg _ hnul)
      rw [List.cons_append, body_escape hquote, hescape]
      simp only [bind, Except.bind, hlater]
      rfl

/-- What is read as a literal has segments. -/
theorem body_segmented (h : body quote fuel cs = .ok s) : ∃ segments,
    Segmented Readable quote segments ∧ s.spelling = spelling quote segments ∧
      s.value = meaning segments := by
  induction fuel generalizing cs s with
  | zero => cases h
  | succ fuel ih =>
    cases cs with
    | nil => cases h
    | cons c cs =>
      rcases body_cons_ok h with ⟨rfl, rfl⟩ | ⟨rfl, e, r, he, hr, rfl⟩ |
        ⟨hquote, hescape, hend, r, hr, rfl⟩
      · exact ⟨[], .nil, rfl, rfl⟩
      · obtain ⟨segments, hsegments, hspelling, hvalue⟩ := ih hr
        refine ⟨('\\' :: e.spelling, e.value) :: segments,
          hsegments.cons (.escape (escape_formed he)) fun hnul c hc => ?_, ?_, ?_⟩
        · have hsplit : r.spelling ++ r.rest = e.rest := body_splits hr
          refine digit_of_escape he (List.cons.inj hnul).2 c ?_
          rw [← hsplit, hspelling, List.head?_append, hc]
          rfl
        · rw [spelling_cons, ← hspelling]
        · rw [meaning_cons, ← hvalue]
      · obtain ⟨segments, hsegments, hspelling, hvalue⟩ := ih hr
        have hend : c ≠ '\n' ∧ c ≠ '\r' := by simpa [Text.isLineEnd] using hend
        refine ⟨([c], [.ofChar c]) :: segments,
          hsegments.cons (.plain hquote hescape hend) fun hnul => ?_, ?_, ?_⟩
        · cases (List.cons.inj hnul).2
        · rw [spelling_cons, ← hspelling, List.singleton_append]
        · rw [meaning_cons, ← hvalue, List.singleton_append]

theorem scan_read (hquote : quote = '"' ∨ quote = '\'') (h : Segmented Readable quote segments) :
    scan quote (spelling quote segments ++ rest) =
      .ok ⟨quote :: spelling quote segments, meaning segments, rest⟩ := by
  have hread : body quote (spelling quote segments ++ rest).length
      (spelling quote segments ++ rest) = _ := body_read hquote h (by simp)
  rw [scan, hread]
  rfl

/-- A literal with its quotes, and the text that it denotes. -/
inductive IsLiteral (braced : List Char → Nat → Prop) : List Char → Text → Prop where
  | quoted {quote : Char} {segments : List (List Char × Text)}
    (hquote : quote = '"' ∨ quote = '\'') (h : Segmented braced quote segments) :
    IsLiteral braced (quote :: spelling quote segments) (meaning segments)

theorem scan_isLiteral (hquote : quote = '"' ∨ quote = '\'') (h : scan quote cs = .ok s) :
    IsLiteral Readable s.spelling s.value := by
  obtain ⟨r, hr, rfl⟩ := scan_eq_ok.1 h
  obtain ⟨segments, hsegments, hspelling, hvalue⟩ := body_segmented hr
  have hliteral := IsLiteral.quoted hquote hsegments
  rwa [← hspelling, ← hvalue] at hliteral

end StringLiteral

open StringLiteral

namespace Scanned

variable {d : Dialect} {c quote : Char} {cs spelled rest : List Char} {kind : Kind}

theorem next_quote (hquote : quote = '"' ∨ quote = '\'') :
    next d quote cs = string quote cs := by
  have hplain : Text.isBlank quote = false ∧ quote ≠ '/' ∧ quote ≠ '#' := by
    rcases hquote with rfl | rfl <;> decide
  obtain ⟨hblank, hslash, hsigil⟩ := hplain
  rw [next_eq_token hblank hslash]
  simp [token, tokenWith, hsigil, hquote]

/-- The text of every string that is read is a literal. -/
theorem isLiteral_of_next {value : Text}
    (h : next d c cs = .ok ⟨.token (.string value), spelled, rest⟩) :
    IsLiteral Readable spelled value := by
  generalize hkind : Kind.string value = kind at h
  cases isToken_of_next h with
  | string hquote hscan =>
    cases hkind
    exact scan_isLiteral hquote hscan
  | word => cases (congrArg Kind.word? hkind).trans (Kind.word?_ofWord _)
  | privateName | number | punct => cases hkind

end Scanned

/-- A literal of which the braces hold hexadecimal digits is one token, and its value is made of
what its segments denote. -/
theorem string_denotes_segments (d : Dialect) (quote : Char) (segments : List (List Char × Text))
    (hquote : quote = '"' ∨ quote = '\'') (h : Segmented IsHexNumber quote segments) :
    tokenize d (.ofList (quote :: spelling quote segments)) =
      .ok ⟨[⟨.string (meaning segments), .start, false⟩],
        ⟨.eof, Place.start.after (quote :: spelling quote segments), false⟩⟩ := by
  have hread : scan quote (spelling quote segments ++ []) = _ :=
    scan_read hquote (h.imp fun _ _ => IsHexNumber.readable)
  rw [List.append_nil] at hread
  rw [tokenize_eq_ok, TokenStream.ofString, String.toList_ofList, TokenStream.ofChars,
    List.length_cons, TokenStream.scan_cons, Scanned.next_quote hquote, Scanned.string, hread]
  simp only [bind, Except.bind, pure, Except.pure, TokenStream.scan_nil]

/-- A segment of each kind. -/
def mixedSegments : List (List Char × Text) :=
  [(['a'], [.ofChar 'a']), (['\\', 'n'], [.ofChar '\n']), (['\\', '0'], [.ofChar '\x00']),
    (['\\', 'x', '4', '1'], [.ofChar 'A']),
    (['\\', 'u', '\x7b', '1', 'f', '\x7d'], [.ofChar '\x1f']), (['\\', '\r', '\n'], []),
    (['\\', 'q'], [.ofChar 'q'])]

theorem mixedSegments_denoted : Segmented IsHexNumber '\'' mixedSegments ∧
    tokenize .plain (.ofList ('\'' :: spelling '\'' mixedSegments)) =
      .ok ⟨[⟨.string (.ofString "a\n\x00A\x1fq"), .start, false⟩],
        ⟨.eof, ⟨⟨2, 4⟩, 22⟩, false⟩⟩ := by
  have h : Segmented IsHexNumber '\'' mixedSegments := by
    have hslash : Text.isDigit '\\' = false := by decide
    refine ⟨?_, by simp [mixedSegments, hslash]⟩
    simp only [mixedSegments, List.forall_mem_cons]
    have hfixed : IsHexNumber ['4', '1'] 0x41 := ⟨by simp, by simp; decide, rfl⟩
    have hbraced : Escape IsHexNumber ('u' :: '\x7b' :: ['1', 'f'] ++ ['\x7d']) [.ofChar '\x1f'] :=
      .braced ⟨by simp, by simp; decide, rfl⟩
    exact ⟨.plain (by decide) (by decide) (by decide), .escape (.control (by decide)),
      .escape .nul, .escape (.fixed (show ('x', 2) ∈ fixedLengths by decide) rfl hfixed),
      .escape hbraced, .escape (.continuation (by decide)),
      .escape (.other (by decide) (by decide) (by decide) (by decide)), by simp⟩
  exact ⟨h, string_denotes_segments .plain '\'' mixedSegments (Or.inr rfl) h⟩

/-- The text of every string token is a literal, but the braces of an escape hold any text that
can be read as a number. -/
theorem string_tokens_are_literals (d : Dialect) (source : String) (s : TokenStream)
    (h : tokenize d source = .ok s) :
    ∀ t ∈ s.tokens, ∀ value, t.kind = .string value → ∃ stop, t.Spans source.toList stop ∧
      IsLiteral Readable ((source.toList.take stop).drop t.place.offset) value := by
  intro t ht value hkind
  obtain ⟨stop, hspan, hliteral⟩ := TokenStream.spelled_of_tokenize
    (P := fun kind text => ∀ value, kind = .string value → IsLiteral Readable text value)
    (fun hnext _ hkind => Scanned.isLiteral_of_next (hkind ▸ hnext)) h t ht
  exact ⟨stop, hspan, hliteral value hkind⟩

/-- Literals with an escape in braces and with a line that goes on. -/
def quotedText : String := "x = \"\\u\x7b+41\x7d\" + \"b\\\nc\""

theorem quotedText_literals : ∃ s, tokenize .plain quotedText = .ok s ∧
    s.tokens.map (·.kind) =
      [.name "x", .punct .eq, .string (.ofString "A"), .punct .plus, .string (.ofString "bc")] ∧
    ∀ t ∈ s.tokens, ∀ value, t.kind = .string value → ∃ stop, t.Spans quotedText.toList stop ∧
      IsLiteral Readable ((quotedText.toList.take stop).drop t.place.offset) value := by
  have hread : (tokenize .plain quotedText).toOption.map (·.tokens.map (·.kind)) =
      some [.name "x", .punct .eq, .string (.ofString "A"), .punct .plus,
        .string (.ofString "bc")] := by
    decide +kernel
  obtain ⟨s, hs, hkinds⟩ := exists_of_toOption hread
  exact ⟨s, hs, hkinds, string_tokens_are_literals .plain quotedText s hs⟩

namespace StringLiteral

variable {braced : List Char → Nat → Prop} {text rest cs : List Char} {c d : Char}

/-- A backslash behind the opening quote begins an escape. -/
theorem IsLiteral.first_escape {value : Text} (h : IsLiteral braced text value)
    (hsplit : text ++ rest = c :: '\\' :: cs) :
    ∃ escaped denoted behind, Escape braced escaped denoted ∧ escaped ++ behind = cs := by
  cases h with
  | @quoted quote segments hquote h =>
    obtain ⟨rfl, hspelling⟩ := List.cons.inj hsplit
    cases segments with
    | nil =>
      obtain ⟨rfl, -⟩ := List.cons.inj hspelling
      exact absurd hquote (by decide)
    | cons segment segments =>
      rw [spelling_cons] at hspelling
      cases h.forms segment List.mem_cons_self with
      | plain _ hescape => exact absurd (List.cons.inj hspelling).1 hescape
      | @escape escaped denoted hescape =>
        refine ⟨escaped, denoted, spelling quote segments ++ rest, hescape, ?_⟩
        rw [← List.append_assoc]
        exact (List.cons.inj hspelling).2

/-- Behind the opening brace of an escape there is a digit. -/
theorem Escape.digit_behind_brace {denoted : Text} (h : Escape IsHexNumber text denoted)
    (hsplit : text ++ rest = 'u' :: '\x7b' :: d :: cs) : d.toLower ∈ hexAlphabet := by
  cases h with
  | control hcontrol =>
    have hletter : ∀ row ∈ controls, row.1 ≠ 'u' := by decide
    exact absurd (List.cons.inj hsplit).1 (hletter _ hcontrol)
  | nul => cases hsplit
  | @fixed letter length ds p hletter hlength hds =>
    have hbehind : ds ++ rest = '\x7b' :: d :: cs := (List.cons.inj hsplit).2
    have hhead : '\x7b' ∈ (ds ++ rest).head? := by rw [hbehind]; rfl
    exact absurd rfl (hds.head_ne_brace _ hhead)
  | @braced ds p hds =>
    obtain ⟨x, ds, rfl⟩ := List.exists_cons_of_ne_nil hds.nonempty
    simp only [List.cons_append, List.cons.injEq, true_and] at hsplit
    exact hsplit.1 ▸ hds.digits x List.mem_cons_self
  | continuation hend =>
    have hhead : ∀ text ∈ lineEndings, text ≠ [] ∧ text.head? ≠ some 'u' := by decide
    obtain ⟨c, text, rfl⟩ := List.exists_cons_of_ne_nil (hhead _ hend).1
    exact absurd (congrArg some (List.cons.inj hsplit).1) (hhead _ hend).2
  | other _ hfixed =>
    obtain ⟨rfl, -⟩ := List.cons.inj hsplit
    exact absurd (by decide) hfixed

end StringLiteral

/-- A literal with a blank in the braces of an escape. -/
def paddedText : String := "'\\u\x7b 41\x7d'"

/-- The braces of an escape may hold more than hexadecimal digits. -/
theorem padded_escape_read : ¬ ∀ d source s, tokenize d source = .ok s →
    ∀ t ∈ s.tokens, ∀ value, t.kind = .string value → ∃ stop, t.Spans source.toList stop ∧
      IsLiteral IsHexNumber ((source.toList.take stop).drop t.place.offset) value := by
  intro h
  have hread : (tokenize .plain paddedText).toOption.map (·.tokens) =
      some [⟨.string (.ofString "A"), .start, false⟩] := by
    decide +kernel
  obtain ⟨s, hs, htokens⟩ := exists_of_toOption hread
  have hmem : (⟨.string (.ofString "A"), .start, false⟩ : Token) ∈ s.tokens := by simp [htokens]
  obtain ⟨stop, -, hliteral⟩ := h .plain paddedText s hs _ hmem _ rfl
  obtain ⟨escaped, denoted, behind, hescape, hsplit⟩ :=
    hliteral.first_escape (List.take_append_drop stop paddedText.toList)
  exact absurd (hescape.digit_behind_brace hsplit) (by decide)

end JsClass
