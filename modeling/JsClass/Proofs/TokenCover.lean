import Mathlib.Data.List.Forall2
import Mathlib.Data.List.Induction
import JsClass.Parse
import JsClass.Proofs.Scope.Frames
import JsClass.Proofs.Token.Spelling

/-!
The tokens of a text cover it: each of them stands where it says and is written as its kind says,
and nothing but blanks and comments stands between them.
-/
namespace JsClass

variable {text pre cs : List Char} {s : TokenStream} {d : Dialect}

/-! Places. -/

theorem Position.lt_trans {p q r : Position} (hpq : p.lt q) (hqr : q.lt r) : p.lt r := by
  rw [lt_iff] at *
  omega

namespace Place

variable {p : Place}

theorem lt_next (p : Place) (c : Char) : p.toPosition.lt (p.next c).toPosition := by
  rw [Position.lt_iff, next]
  split
  · left
    show p.line < p.line + 1
    omega
  · right
    show p.line = p.line ∧ p.col < p.col + 1
    omega

/-- Reading goes forward. -/
theorem lt_after (hcs : cs ≠ []) : p.toPosition.lt (p.after cs).toPosition := by
  induction cs generalizing p with
  | nil => exact absurd rfl hcs
  | cons c cs ih =>
    rw [after_cons]
    by_cases hnil : cs = []
    · subst hnil
      exact lt_next p c
    · exact Position.lt_trans (lt_next p c) (ih hnil)

/-- The line of a place counts the line feeds before it, and its column the characters behind the
last one. -/
theorem start_after (cs : List Char) : start.after cs =
    ⟨⟨1 + cs.count '\n', 1 + (cs.reverse.takeWhile (· != '\n')).length⟩, cs.length⟩ := by
  induction cs using List.reverseRecOn with
  | nil => rfl
  | append_singleton cs c ih =>
    rw [after_append, ih, after_cons, after_nil, next]
    by_cases hc : c = '\n'
    · simp [hc, Int.add_assoc]
    · simp [hc, Int.add_assoc]

end Place

theorem tokenize_eq_ok {source : String} :
    tokenize d source = .ok s ↔ TokenStream.ofString d source = .ok s := by
  unfold tokenize
  cases TokenStream.ofString d source <;> simp [Except.mapError]

/-! Spans and gaps. -/

/-- A token stands in a text from its offset up to the offset `stop`. -/
structure Token.Spans (text : List Char) (t : Token) (stop : Nat) : Prop where
  nonempty : t.place.offset < stop
  inside : stop ≤ text.length
  spelling : t.kind.SpelledBy ((text.take stop).drop t.place.offset)
  maximal : t.kind.isMaximal → ∀ c ∈ text[stop]?, isIdentifierPart c = false

/-- Nothing but trivia stands between two offsets. -/
structure IsGap (text : List Char) (start stop : Nat) : Prop where
  le : start ≤ stop
  skips : Trivia.Skips (text.drop start) (text.drop stop)

/-- A stream covers a text from an offset on. -/
structure TokenStream.Covers (text : List Char) (start : Nat) (s : TokenStream) : Prop where
  finish : s.finish.kind = .eof ∧ s.finish.place.offset = text.length
  tokens : ∃ stops, List.Forall₂ (Token.Spans text) s.tokens stops ∧
    List.Forall₂ (IsGap text) (start :: stops) (s.toList.map (·.place.offset))
  places : ∀ t ∈ s.toList, t.place = Place.start.after (text.take t.place.offset)
  sorted : s.toList.Pairwise fun t u => t.place.offset < u.place.offset
  later : ∀ t ∈ s.toList, start ≤ t.place.offset

namespace TokenStream

theorem Covers.finished {newline : Bool} :
    Covers text text.length ⟨[], ⟨.eof, Place.start.after text, newline⟩⟩ := by
  have hoffset : (Place.start.after text).offset = text.length := by rw [Place.start_after]
  have hgap : IsGap text text.length text.length := ⟨Nat.le_refl _, .done _⟩
  refine ⟨⟨rfl, hoffset⟩, ⟨[], .nil, ?_⟩, ?_, ?_, ?_⟩
  · simpa [toList, hoffset] using hgap
  · simp [toList, hoffset]
  · simp [toList]
  · simp [toList, hoffset]

/-- Trivia before a stream makes its first gap longer. -/
theorem Covers.trivia {start stop : Nat} (h : s.Covers text stop) (hle : start ≤ stop)
    (hskips : ∀ {rest}, Trivia.Skips (text.drop stop) rest → Trivia.Skips (text.drop start) rest) :
    s.Covers text start := by
  obtain ⟨stops, hspans, hgaps⟩ := h.tokens
  refine ⟨h.finish, ⟨stops, hspans, ?_⟩, h.places, h.sorted,
    fun t ht => Nat.le_trans hle (h.later t ht)⟩
  generalize s.toList.map (·.place.offset) = offsets at hgaps ⊢
  cases hgaps with
  | cons hgap hgaps => exact .cons ⟨Nat.le_trans hle hgap.le, hskips hgap.skips⟩ hgaps

theorem Covers.token {t : Token} {stop : Nat} (h : s.Covers text stop) (ht : t.Spans text stop)
    (hplace : t.place = Place.start.after (text.take t.place.offset)) :
    { s with tokens := t :: s.tokens }.Covers text t.place.offset := by
  obtain ⟨stops, hspans, hgaps⟩ := h.tokens
  have hgap : IsGap text t.place.offset t.place.offset := ⟨Nat.le_refl _, .done _⟩
  refine ⟨h.finish, ⟨stop :: stops, .cons ht hspans, .cons hgap hgaps⟩, ?_, ?_, ?_⟩
  · intro u hu
    rcases List.mem_cons.1 hu with rfl | hu
    · exact hplace
    · exact h.places u hu
  · exact List.pairwise_cons.2 ⟨fun u hu => Nat.lt_of_lt_of_le ht.nonempty (h.later u hu), h.sorted⟩
  · intro u hu
    rcases List.mem_cons.1 hu with rfl | hu
    · exact Nat.le_refl _
    · exact Nat.le_trans (Nat.le_of_lt ht.nonempty) (h.later u hu)

theorem offset_after (pre : List Char) : (Place.start.after pre).offset = pre.length := by
  rw [Place.start_after]

theorem take_drop_behind (pre spelling rest : List Char) :
    ((pre ++ (spelling ++ rest)).take (pre.length + spelling.length)).drop pre.length =
      spelling := by
  rw [← List.append_assoc, ← List.length_append, List.take_left, List.drop_left]

theorem getElem?_behind (pre spelling rest : List Char) :
    (pre ++ (spelling ++ rest))[pre.length + spelling.length]? = rest.head? := by
  rw [← List.append_assoc, ← List.length_append, List.getElem?_append_right (Nat.le_refl _),
    Nat.sub_self, List.head?_eq_getElem?]

/-- The token that is read next stands behind what was read before. -/
theorem spans_of_next {c : Char} {kind : Kind} {spelling rest : List Char} {newline : Bool}
    (h : Scanned.next d c cs = .ok ⟨.token kind, spelling, rest⟩) :
    (⟨kind, Place.start.after pre, newline⟩ : Token).Spans (pre ++ c :: cs)
      (pre.length + spelling.length) := by
  obtain ⟨hsplit, hne⟩ := Scanned.next_splits h
  obtain ⟨hspelled, hmaximal⟩ := Scanned.next_faithful h kind rfl
  have hsplit : spelling ++ rest = c :: cs := hsplit
  have hlength := List.length_pos_iff.2 hne
  rw [← hsplit]
  refine ⟨?_, ?_, ?_, ?_⟩
  · rw [offset_after]
    exact Nat.lt_add_of_pos_right hlength
  · simp
  · rw [offset_after, take_drop_behind]
    exact hspelled
  · intro hkind x hx
    rw [getElem?_behind] at hx
    exact hmaximal hkind x hx

/-- Whatever was read already, the rest of the text is covered. -/
theorem Scans.covers {newline : Bool} (h : Scans d pre newline cs s) :
    s.Covers (pre ++ cs) pre.length := by
  induction h with
  | done pre newline => simpa using Covers.finished
  | @trivia pre newline breaksLine c cs spelling rest s hsplit hnext h ih =>
    rw [List.length_append] at ih
    have htext : (pre ++ spelling) ++ rest = pre ++ c :: cs := by rw [List.append_assoc, hsplit]
    rw [← htext]
    refine ih.trivia (Nat.le_add_right _ _) fun hskips => ?_
    rw [← List.length_append, List.drop_left] at hskips
    rw [htext, List.drop_left]
    exact .of_next hnext hskips
  | @token pre newline c cs spelling rest kind s hsplit hnext h ih =>
    rw [List.append_assoc, hsplit, List.length_append] at ih
    have htoken := ih.token (spans_of_next hnext) (t := ⟨kind, _, newline⟩) ?_
    · rwa [offset_after] at htoken
    · rw [offset_after, List.take_left]

theorem Covers.ne_eof {start : Nat} (h : s.Covers text start) : ∀ t ∈ s.tokens, t.kind ≠ .eof := by
  obtain ⟨stops, hspans, -⟩ := h.tokens
  generalize s.tokens = tokens at hspans
  induction hspans with
  | nil => simp
  | cons hspan _ ih =>
    refine List.forall_mem_cons.2 ⟨fun heof => ?_, ih⟩
    have hspelled := hspan.spelling
    rwa [heof] at hspelled

/-- A token further on is further down, or further to the right. -/
theorem Covers.pairwise_lt {start : Nat} (h : s.Covers text start) :
    s.toList.Pairwise fun t u => t.pos.lt u.pos := by
  refine h.sorted.imp_of_mem fun {t u} ht hu hlt => ?_
  have hbound : u.place.offset ≤ text.length := by
    have hoffset := congrArg Place.offset (h.places u hu)
    rw [offset_after, List.length_take] at hoffset
    omega
  have hsplit : text.take u.place.offset =
      text.take t.place.offset ++ (text.take u.place.offset).drop t.place.offset := by
    rw [← List.take_append_drop t.place.offset (text.take u.place.offset), List.take_take,
      Nat.min_eq_left (Nat.le_of_lt hlt), List.drop_left' (by simp; omega)]
  have hplace : u.place = t.place.after ((text.take u.place.offset).drop t.place.offset) := by
    calc u.place = Place.start.after (text.take u.place.offset) := h.places u hu
      _ = t.place.after ((text.take u.place.offset).drop t.place.offset) := by
        rw [hsplit, Place.after_append, ← h.places t ht, ← hsplit]
  rw [Token.pos, Token.pos, hplace]
  refine Place.lt_after (List.length_pos_iff.1 ?_)
  rw [List.length_drop, List.length_take]
  omega

theorem scans_of_tokenize {source : String} (h : tokenize d source = .ok s) :
    Scans d [] false source.toList s :=
  scans_of_scan (Nat.le_refl _) (tokenize_eq_ok.1 h)

theorem covers_of_tokenize {source : String} (h : tokenize d source = .ok s) :
    s.Covers source.toList 0 :=
  (scans_of_tokenize h).covers

/-- What holds of every token that can be read holds of the tokens of a text. -/
theorem Scans.spelled {P : Kind → List Char → Prop} {newline : Bool}
    (hread : ∀ {c cs kind spelling rest},
      Scanned.next d c cs = .ok ⟨.token kind, spelling, rest⟩ → P kind spelling)
    (h : Scans d pre newline cs s) : ∀ t ∈ s.tokens, ∃ stop, t.Spans (pre ++ cs) stop ∧
      P t.kind (((pre ++ cs).take stop).drop t.place.offset) := by
  induction h with
  | done => simp
  | trivia hsplit hnext h ih => rwa [List.append_assoc, hsplit] at ih
  | token hsplit hnext h ih =>
    rw [List.append_assoc, hsplit] at ih
    refine List.forall_mem_cons.2 ⟨⟨_, spans_of_next hnext, ?_⟩, ih⟩
    rw [← hsplit, offset_after, take_drop_behind]
    exact hread hnext

theorem spelled_of_tokenize {P : Kind → List Char → Prop} {source : String}
    (hread : ∀ {c cs kind spelling rest},
      Scanned.next d c cs = .ok ⟨.token kind, spelling, rest⟩ → P kind spelling)
    (h : tokenize d source = .ok s) : ∀ t ∈ s.tokens, ∃ stop, t.Spans source.toList stop ∧
      P t.kind ((source.toList.take stop).drop t.place.offset) :=
  (scans_of_tokenize h).spelled hread

end TokenStream

/-- The end of input comes last and only there, at the end of the text. The other tokens have ends,
so that they stand in the text as they are written, and only trivia stands before, between and
behind them. Lines and columns are counted from the text, and grow from token to token. -/
theorem tokens_cover_source (d : Dialect) (source : String) (s : TokenStream)
    (h : tokenize d source = .ok s) :
    (s.finish.kind = .eof ∧ s.finish.place.offset = source.toList.length ∧
      ∀ t ∈ s.tokens, t.kind ≠ .eof) ∧
    (∃ stops, List.Forall₂ (Token.Spans source.toList) s.tokens stops ∧
      List.Forall₂ (IsGap source.toList) (0 :: stops) (s.toList.map (·.place.offset))) ∧
    (∀ t ∈ s.toList,
      t.place.line = 1 + (source.toList.take t.place.offset).count '\n' ∧
      t.place.col =
        1 + ((source.toList.take t.place.offset).reverse.takeWhile (· != '\n')).length) ∧
    s.toList.Pairwise fun t u => t.pos.lt u.pos := by
  have hcovers := TokenStream.covers_of_tokenize h
  refine ⟨⟨hcovers.finish.1, hcovers.finish.2, hcovers.ne_eof⟩, hcovers.tokens, ?_,
    hcovers.pairwise_lt⟩
  intro t ht
  have hplace := hcovers.places t ht
  rw [Place.start_after] at hplace
  exact ⟨congrArg (·.line) hplace, congrArg (·.col) hplace⟩

/-- Comments of both kinds, a string that goes on in the next line, and a private name. -/
def coveredText : String := "// a\n/* b\n */ 'c\\\nd'; class A { #m; n() { return 0x1F } }"

theorem coveredText_covered : ∃ s, tokenize .withPrivate coveredText = .ok s ∧
    s.tokens.length = 15 ∧ s.finish.place.line = 4 ∧
    (∃ stops, List.Forall₂ (Token.Spans coveredText.toList) s.tokens stops) ∧
    s.toList.Pairwise fun t u => t.pos.lt u.pos := by
  have hread : ((tokenize .withPrivate coveredText).toOption.map fun s =>
      (s.tokens.length, s.finish.place.line)) = some (15, 4) := by
    decide +kernel
  cases hs : tokenize .withPrivate coveredText with
  | error e => simp [hs, Except.toOption] at hread
  | ok s =>
    simp only [hs, Except.toOption, Option.map_some, Option.some.injEq, Prod.mk.injEq] at hread
    obtain ⟨-, ⟨stops, hstops, -⟩, -, hlt⟩ := tokens_cover_source .withPrivate coveredText s hs
    exact ⟨s, rfl, hread.1, hread.2, ⟨stops, hstops⟩, hlt⟩

end JsClass
