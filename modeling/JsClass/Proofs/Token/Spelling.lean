import JsClass.Token.Split

/-! What the kind of a token says about its spelling, and what stands between tokens. -/
namespace JsClass

namespace Trie

variable {α : Type} {t u : Trie α} {a : α} {c d : Char} {cs word rest : List Char}

/-- The entry of a word. -/
def find? (t : Trie α) : List Char → Option α
  | [] => t.entry
  | c :: cs => (t.branch? c).bind fun u => u.find? cs

theorem lookup_row {rows : List (Char × Trie α)} :
    ((c, u) :: rows).lookup d = if d = c then some u else rows.lookup d := by
  by_cases h : d = c
  · simp [h]
  · have hbeq : (d == c) = false := beq_false_of_ne h
    simp [List.lookup_cons, hbeq, h]

theorem lookup_setBranch {rows : List (Char × Trie α)} :
    (setBranch c u rows).lookup d = if d = c then some u else rows.lookup d := by
  induction rows with
  | nil => rw [setBranch, lookup_row]
  | cons row rows ih =>
    obtain ⟨x, v⟩ := row
    rw [setBranch]
    split
    · next hx =>
      subst hx
      rw [lookup_row, lookup_row]
      split <;> rfl
    · next hx =>
      rw [lookup_row, lookup_row, ih]
      by_cases hd : d = x
      · simp [hd, hx]
      · simp [hd]

theorem find?_empty : (empty : Trie α).find? word = none := by
  cases word <;> rfl

theorem find?_insert : (insert word a t).find? cs = if cs = word then some a else t.find? cs := by
  induction word generalizing t cs with
  | nil =>
    cases cs with
    | nil => rfl
    | cons c cs => rfl
  | cons c word ih =>
    cases cs with
    | nil => rfl
    | cons d cs =>
      have hbranch : (insert (c :: word) a t).branch? d =
          if d = c then some (insert word a ((t.branch? c).getD empty)) else t.branch? d :=
        lookup_setBranch
      rw [find?, hbranch]
      by_cases hd : d = c
      · subst hd
        simp only [if_true, Option.bind_some, ih, List.cons.injEq, true_and]
        split
        · rfl
        · cases h : t.branch? d <;> simp [find?, h, find?_empty]
      · simp [find?, hd]

/-- A trie of a table has the entries of the table only. -/
theorem mem_of_find?_ofTable {table : List (List Char × α)}
    (h : (ofTable table).find? word = some a) : (word, a) ∈ table := by
  have hfold : ∀ (table : List (List Char × α)) (t : Trie α),
      (table.foldl (fun t row => insert row.1 row.2 t) t).find? word = some a →
        (word, a) ∈ table ∨ t.find? word = some a := by
    intro table
    induction table with
    | nil => exact fun t ht => Or.inr ht
    | cons row table ih =>
      intro t ht
      rcases ih _ ht with hmem | hfind
      · exact Or.inl (List.mem_cons_of_mem _ hmem)
      · rw [find?_insert] at hfind
        split at hfind
        · next hword =>
          cases hfind
          exact Or.inl (by simp [hword])
        · exact Or.inr hfind
  rcases hfold table empty h with hmem | hfind
  · exact hmem
  · rw [find?_empty] at hfind
    cases hfind

theorem find?_of_longest (h : t.longest cs = some (a, word, rest)) : t.find? word = some a := by
  induction cs generalizing t word with
  | nil => simp [longest] at h
  | cons c cs ih =>
    rw [longest] at h
    split at h
    · simp at h
    · next u hu =>
      split at h
      · next b w r hlongest =>
        cases h
        simp [find?, hu, ih hlongest]
      · obtain ⟨b, hb, he⟩ := Option.map_eq_some_iff.1 h
        cases he
        simp [find?, hu, hb]

end Trie

/-- How a token of a kind may be written. -/
def Kind.SpelledBy : Kind → List Char → Prop
  | .number raw, text => text = raw.toList
  | .name word, text => text = word.toList
  | .keyword k, text => text = k.text.toList
  | .punct p, text => text = p.text.toList
  | .privateName word, text => text = '#' :: word.toList
  | .string _, text => ∃ quote body, (quote = '"' ∨ quote = '\'') ∧ text = quote :: body ++ [quote]
  | .eof, _ => False

/-- The kinds of which the longest possible spelling is read. -/
def Kind.isMaximal (k : Kind) : Bool := k.word?.isSome || k.isPrivateName

namespace StringLiteral

variable {quote : Char} {fuel : Nat} {cs : List Char} {s : Segment}

/-- The segments of a literal end with its closing quote. -/
theorem body_closed (h : body quote fuel cs = .ok s) : ∃ inner, s.spelling = inner ++ [quote] := by
  induction fuel generalizing cs s with
  | zero => simp [body] at h
  | succ fuel ih =>
    cases cs with
    | nil => simp [body] at h
    | cons c cs =>
      rcases body_cons_ok h with ⟨rfl, rfl⟩ | ⟨-, e, r, -, hr, rfl⟩ | ⟨-, -, -, r, hr, rfl⟩
      · exact ⟨[], rfl⟩
      · obtain ⟨inner, hinner⟩ := ih hr
        exact ⟨c :: e.spelling ++ inner, by simp [hinner]⟩
      · obtain ⟨inner, hinner⟩ := ih hr
        exact ⟨c :: inner, by simp [hinner]⟩

theorem scan_closed (h : scan quote cs = .ok s) :
    ∃ inner, s.spelling = quote :: inner ++ [quote] := by
  obtain ⟨r, hr, rfl⟩ := scan_eq_ok.1 h
  obtain ⟨inner, hinner⟩ := body_closed hr
  exact ⟨inner, by simp [hinner]⟩

end StringLiteral

namespace Scanned

variable {d : Dialect} {c : Char} {cs : List Char} {s : Scanned}

/-- A token is written as its kind says, and a word goes as far as it can. -/
def Faithful (s : Scanned) : Prop :=
  ∀ kind, s.piece = .token kind → kind.SpelledBy s.spelling ∧
    (kind.isMaximal → ∀ x ∈ s.rest.head?, isIdentifierPart x = false)

theorem Faithful.of_token {kind : Kind} {spelling rest : List Char}
    (hs : kind.SpelledBy spelling)
    (hr : kind.isMaximal → ∀ x ∈ rest.head?, isIdentifierPart x = false) :
    Faithful ⟨.token kind, spelling, rest⟩ := by
  rintro _ ⟨⟩
  exact ⟨hs, hr⟩

/-- A token that is no word shows where it ends. -/
theorem Faithful.of_bounded {kind : Kind} {spelling rest : List Char}
    (hs : kind.SpelledBy spelling) (hk : kind.isMaximal = false) :
    Faithful ⟨.token kind, spelling, rest⟩ :=
  .of_token hs fun h => absurd h (by simp [hk])

theorem head?_splitWhile {p : Char → Bool} {x : Char} (h : x ∈ (splitWhile p cs).2.head?) :
    p x = false := by
  have hx := List.head?_dropWhile_not p cs
  rw [show cs.dropWhile p = (splitWhile p cs).2 from rfl, h] at hx
  exact hx

theorem ofWord_spelledBy (word : List Char) : (Kind.ofWord (.ofList word)).SpelledBy word := by
  unfold Kind.ofWord
  split
  · next k hk =>
    have htext : k.text = .ofList word := by simpa using List.find?_some hk
    simp [Kind.SpelledBy, htext]
  · simp [Kind.SpelledBy]

theorem word_faithful (cs : List Char) : (word cs).Faithful :=
  .of_token (ofWord_spelledBy _) fun _ _ => head?_splitWhile

theorem privateName_faithful (cs : List Char) : (privateName cs).Faithful :=
  .of_token (by simp [Kind.SpelledBy]) fun _ _ => head?_splitWhile

theorem operator_faithful (h : operator Punct.trie .punct c cs = .ok s) : s.Faithful := by
  unfold operator at h
  split at h
  · next p word rest hlongest =>
    cases h
    have hmem := Trie.mem_of_find?_ofTable (Trie.find?_of_longest hlongest)
    obtain ⟨q, -, hq⟩ := List.mem_map.1 hmem
    cases hq
    exact .of_bounded rfl rfl
  · cases h

theorem number_faithful (h : number cs = .ok s) : s.Faithful := by
  obtain ⟨raw, rest, -, rfl⟩ := number_eq_ok.1 h
  exact .of_bounded (by simp [Kind.SpelledBy]) rfl

theorem string_faithful (hc : c = '"' ∨ c = '\'') (h : string c cs = .ok s) : s.Faithful := by
  obtain ⟨r, hscan, rfl⟩ := string_eq_ok.1 h
  obtain ⟨body, hbody⟩ := StringLiteral.scan_closed hscan
  exact .of_bounded ⟨c, body, hc, hbody⟩ rfl

theorem token_faithful (h : token d c cs = .ok s) : s.Faithful := by
  unfold token tokenWith at h
  split at h
  · cases h
    exact privateName_faithful cs
  · split at h
    · next hc => exact string_faithful (by simpa using hc) h
    · split at h
      · exact number_faithful h
      · split at h
        · cases h
          exact word_faithful _
        · exact operator_faithful h

theorem trivia_faithful {breaksLine : Bool} {spelling rest : List Char} :
    Faithful ⟨.trivia breaksLine, spelling, rest⟩ := by
  rintro _ ⟨⟩

theorem next_faithful (h : next d c cs = .ok s) : s.Faithful := by
  unfold next nextWith at h
  split at h
  · cases h
    exact trivia_faithful
  · split at h
    · cases h
      exact trivia_faithful
    · split at h
      · cases h
        exact trivia_faithful
      · unfold blockComment at h
        split at h
        · cases h
          exact trivia_faithful
        · cases h
      · exact token_faithful h

end Scanned

/-! What stands between tokens. -/

namespace Trivia

/-- The second text is what is left of the first one behind blanks, line comments and closed block
comments. -/
inductive Skips : List Char → List Char → Prop where
  | done (cs : List Char) : Skips cs cs
  | blank {c : Char} {cs rest : List Char} (hc : Text.isBlank c) (h : Skips cs rest) :
    Skips (c :: cs) rest
  | lineComment {body cs rest : List Char} (hbody : ∀ c ∈ body, Text.isLineEnd c = false)
    (hend : ∀ c ∈ cs.head?, Text.isLineEnd c) (h : Skips cs rest) :
    Skips ('/' :: '/' :: body ++ cs) rest
  | blockComment {body cs rest : List Char} (hbody : ¬ ['*', '/'] <:+: body ++ ['*'])
    (h : Skips cs rest) : Skips ('/' :: '*' :: body ++ '*' :: '/' :: cs) rest

variable {c : Char} {cs rest : List Char}

theorem isBlank_of_isLineTerminator (h : Text.isLineTerminator c) : Text.isBlank c := by
  simp only [Text.isLineTerminator, Bool.or_eq_true, beq_iff_eq] at h
  rcases h with ((rfl | rfl) | rfl) | rfl <;> decide

/-- A block comment ends at its first end mark. -/
theorem blockComment?_eq_some {text : List Char} (h : blockComment? cs = some (text, rest)) :
    ∃ body, text = body ++ ['*', '/'] ∧ ¬ ['*', '/'] <:+: body ++ ['*'] := by
  fun_induction blockComment? cs generalizing text rest with
  | case1 => cases h
  | case2 =>
    cases h
    exact ⟨[], rfl, by decide⟩
  | case3 c cs hopen ih =>
    obtain ⟨⟨text, rest⟩, hr, he⟩ := Option.map_eq_some_iff.1 h
    cases he
    obtain ⟨body, rfl, hbody⟩ := ih hr
    refine ⟨c :: body, rfl, ?_⟩
    rw [List.cons_append, List.infix_cons_iff]
    rintro (hfirst | hinfix)
    · -- the mark would be the first one already
      have hsplit := blockComment?_split hr
      obtain ⟨rfl, hslash⟩ := List.cons_prefix_cons.1 hfirst
      cases body with
      | nil => simp at hslash
      | cons x body =>
        obtain ⟨rfl, -⟩ := List.cons_prefix_cons.1 hslash
        exact hopen _ rfl hsplit.symm
    · exact hbody hinfix

theorem token_ne_trivia {d : Dialect} {breaksLine : Bool} {spelling behind : List Char} :
    Scanned.token d c cs ≠ .ok ⟨.trivia breaksLine, spelling, behind⟩ := by
  intro h
  unfold Scanned.token Scanned.tokenWith at h
  split at h
  · cases h
  · split at h
    · obtain ⟨_, -, heq⟩ := Scanned.string_eq_ok.1 h
      cases heq
    · split at h
      · obtain ⟨_, _, -, heq⟩ := Scanned.number_eq_ok.1 h
        cases heq
      · split at h
        · cases h
        · unfold Scanned.operator at h
          split at h <;> cases h

/-- Every bit of trivia is passed by. -/
theorem Skips.of_next {d : Dialect} {breaksLine : Bool} {spelling behind : List Char}
    (h : Scanned.next d c cs = .ok ⟨.trivia breaksLine, spelling, behind⟩)
    (hskips : Skips behind rest) : Skips (c :: cs) rest := by
  unfold Scanned.next Scanned.nextWith at h
  split at h
  · next hc =>
    cases h
    exact .blank (isBlank_of_isLineTerminator hc) hskips
  · split at h
    · next hc =>
      cases h
      exact .blank hc hskips
    · split at h
      · next text _ _ =>
        cases h
        have hsplit := lineComment_split text
        rw [← hsplit]
        refine .lineComment ?_ ?_ hskips
        · intro x hx
          simpa using List.all_eq_true.1 List.all_takeWhile x hx
        · intro x hx
          simpa using Scanned.head?_splitWhile hx
      · unfold Scanned.blockComment at h
        split at h
        · next body after hb =>
          cases h
          obtain ⟨inner, rfl, hinner⟩ := blockComment?_eq_some hb
          have hsplit := blockComment?_split hb
          rw [← hsplit, List.append_assoc]
          exact .blockComment hinner hskips
        · cases h
      · exact absurd h token_ne_trivia

end Trivia

theorem Kind.word?_ofWord (word : String) : (ofWord word).word? = some word := by
  unfold ofWord
  split
  · next k hk =>
    have htext : k.text = word := by simpa using List.find?_some hk
    exact congrArg some htext
  · rfl

namespace Scanned

variable {d : Dialect} {c : Char} {cs spelling rest : List Char} {kind : Kind}

/-- What begins neither a blank nor a comment is a token. -/
theorem nextWith_eq_token {α : Type} {t : Trie α} {kind : α → Kind}
    (hblank : Text.isBlank c = false)
    (hcomment : c = '/' → cs.head? ≠ some '/' ∧ cs.head? ≠ some '*') :
    nextWith t kind d c cs = tokenWith t kind d c cs := by
  have hend : Text.isLineTerminator c = false := by
    rw [Bool.eq_false_iff]
    intro hend
    rw [Trivia.isBlank_of_isLineTerminator hend] at hblank
    cases hblank
  unfold nextWith
  simp only [hend, hblank, Bool.false_eq_true, if_false]
  split
  · exact absurd rfl (hcomment rfl).1
  · exact absurd rfl (hcomment rfl).2
  · rfl

theorem next_eq_token (hblank : Text.isBlank c = false) (hslash : c ≠ '/') :
    next d c cs = token d c cs := nextWith_eq_token hblank fun h => absurd h hslash

/-- The tokens that can be read at a place: their kind, their spelling and the text behind them. -/
inductive IsToken (d : Dialect) (c : Char) (cs : List Char) :
    Kind → List Char → List Char → Prop where
  | privateName {word rest : List Char} (hc : d = .withPrivate ∧ c = '#')
    (h : splitWhile isIdentifierPart cs = (word, rest)) :
    IsToken d c cs (.privateName (.ofList word)) ('#' :: word) rest
  | string {s : StringLiteral.Segment} (hc : c = '"' ∨ c = '\'')
    (h : StringLiteral.scan c cs = .ok s) : IsToken d c cs (.string s.value) s.spelling s.rest
  | number {raw rest : List Char} (hstarts : NumberLiteral.starts (c :: cs))
    (h : NumberLiteral.scan (c :: cs) = .ok (raw, rest)) :
    IsToken d c cs (.number (.ofList raw)) raw rest
  | word {word rest : List Char} (hc : isIdentifierStart c)
    (h : splitWhile isIdentifierPart (c :: cs) = (word, rest)) :
    IsToken d c cs (.ofWord (.ofList word)) word rest
  | punct {p : Punct} {spelling rest : List Char}
    (h : Punct.trie.longest (c :: cs) = some (p, spelling, rest)) :
    IsToken d c cs (.punct p) spelling rest

theorem isToken_of_token (h : token d c cs = .ok ⟨.token kind, spelling, rest⟩) :
    IsToken d c cs kind spelling rest := by
  unfold token tokenWith at h
  split at h
  · next hc =>
    cases h
    exact .privateName (by simpa using hc) rfl
  · split at h
    · next hc =>
      obtain ⟨s, hscan, heq⟩ := string_eq_ok.1 h
      cases heq
      exact .string (by simpa using hc) hscan
    · split at h
      · next hstarts =>
        obtain ⟨raw, rest, hscan, heq⟩ := number_eq_ok.1 h
        cases heq
        exact .number hstarts hscan
      · split at h
        · next hc =>
          cases h
          exact .word hc rfl
        · unfold operator at h
          split at h
          · next hlongest =>
            cases h
            exact .punct hlongest
          · cases h

/-- Every token is read as one of these. -/
theorem isToken_of_next (h : next d c cs = .ok ⟨.token kind, spelling, rest⟩) :
    IsToken d c cs kind spelling rest := by
  unfold next nextWith at h
  split at h
  · cases h
  · split at h
    · cases h
    · split at h
      · cases h
      · unfold blockComment at h
        split at h <;> cases h
      · exact isToken_of_token h

end Scanned

/-- A stream that is not at its end begins with a piece, which is dropped if it is trivia. -/
theorem TokenStream.scan_cons_ok {d : Dialect} {fuel : Nat} {place : Place} {newline : Bool}
    {c : Char} {cs : List Char} {s : TokenStream}
    (h : scan d (fuel + 1) place newline (c :: cs) = .ok s) :
    ∃ spelling rest, spelling ++ rest = c :: cs ∧ spelling ≠ [] ∧
      ((∃ breaksLine, Scanned.next d c cs = .ok ⟨.trivia breaksLine, spelling, rest⟩ ∧
          scan d fuel (place.after spelling) (newline || breaksLine) rest = .ok s) ∨
        ∃ kind later, Scanned.next d c cs = .ok ⟨.token kind, spelling, rest⟩ ∧
          scan d fuel (place.after spelling) false rest = .ok later ∧
          s = { later with tokens := ⟨kind, place, newline⟩ :: later.tokens }) := by
  rw [scan_cons] at h
  cases hnext : Scanned.next d c cs with
  | error fault => simp [hnext] at h
  | ok piece =>
    obtain ⟨piece, spelling, rest⟩ := piece
    obtain ⟨hsplit, hne⟩ := Scanned.next_splits hnext
    refine ⟨spelling, rest, hsplit, hne, ?_⟩
    cases piece with
    | trivia breaksLine =>
      simp only [hnext] at h
      exact Or.inl ⟨breaksLine, rfl, h⟩
    | token kind =>
      simp only [hnext] at h
      cases hscan : scan d fuel (place.after spelling) false rest with
      | error e => simp [hscan, bind, Except.bind] at h
      | ok later =>
        simp only [hscan, bind, Except.bind, pure, Except.pure, Except.ok.injEq] at h
        exact Or.inr ⟨kind, later, rfl, rfl, h.symm⟩

/-- How a stream is read behind the text `pre`, piece by piece. -/
inductive TokenStream.Scans (d : Dialect) :
    List Char → Bool → List Char → TokenStream → Prop where
  | done (pre : List Char) (newline : Bool) :
    Scans d pre newline [] ⟨[], ⟨.eof, Place.start.after pre, newline⟩⟩
  | trivia {pre : List Char} {newline breaksLine : Bool} {c : Char} {cs spelling rest : List Char}
    {s : TokenStream} (hsplit : spelling ++ rest = c :: cs)
    (hnext : Scanned.next d c cs = .ok ⟨.trivia breaksLine, spelling, rest⟩)
    (h : Scans d (pre ++ spelling) (newline || breaksLine) rest s) : Scans d pre newline (c :: cs) s
  | token {pre : List Char} {newline : Bool} {c : Char} {cs spelling rest : List Char} {kind : Kind}
    {s : TokenStream} (hsplit : spelling ++ rest = c :: cs)
    (hnext : Scanned.next d c cs = .ok ⟨.token kind, spelling, rest⟩)
    (h : Scans d (pre ++ spelling) false rest s) : Scans d pre newline (c :: cs)
      { s with tokens := ⟨kind, Place.start.after pre, newline⟩ :: s.tokens }

theorem TokenStream.scans_of_scan {d : Dialect} {fuel : Nat} {pre cs : List Char} {newline : Bool}
    {s : TokenStream} (hfuel : cs.length ≤ fuel)
    (h : scan d fuel (Place.start.after pre) newline cs = .ok s) : Scans d pre newline cs s := by
  induction fuel generalizing pre newline cs s with
  | zero =>
    obtain rfl := List.length_eq_zero_iff.1 (Nat.le_zero.1 hfuel)
    rw [scan_nil] at h
    cases h
    exact .done pre newline
  | succ fuel ih =>
    cases cs with
    | nil =>
      rw [scan_nil] at h
      cases h
      exact .done pre newline
    | cons c cs =>
      obtain ⟨spelling, rest, hsplit, -, hpiece⟩ := scan_cons_ok h
      have hrest {piece : Scanned} (hnext : Scanned.next d c cs = .ok piece) :
          piece.rest.length ≤ fuel :=
        Nat.le_trans (Scanned.next_shorter hnext) (Nat.le_of_succ_le_succ hfuel)
      rw [← Place.after_append] at hpiece
      rcases hpiece with ⟨breaksLine, hnext, hscan⟩ | ⟨kind, later, hnext, hscan, rfl⟩
      · exact .trivia hsplit hnext (ih (hrest hnext) hscan)
      · exact .token hsplit hnext (ih (hrest hnext) hscan)

end JsClass
