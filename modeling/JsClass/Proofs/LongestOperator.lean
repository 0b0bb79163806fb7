import JsClass.Proofs.LongestNumber
import JsClass.Proofs.TokenCover

/-!
What a trie of operators reads: the longest word of its table that the text begins with, also
where there is a node on the way that is the end of no word.
-/
namespace JsClass

variable {α : Type} {a : α} {cs word rest other : List Char} {t : Trie α}

namespace Trie

theorem find?_ofTable_concat {table : List (List Char × α)} {row : List Char × α} :
    (ofTable (table ++ [row])).find? word =
      if word = row.1 then some row.2 else (ofTable table).find? word := by
  rw [ofTable, List.foldl_append]
  exact find?_insert

/-- A trie has every entry of its table, if no word has two of them. -/
theorem find?_ofTable {table : List (List Char × α)} (hdistinct : (table.map (·.1)).Nodup) :
    (ofTable table).find? word = some a ↔ (word, a) ∈ table := by
  refine ⟨mem_of_find?_ofTable, fun hmem => ?_⟩
  induction table using List.reverseRecOn with
  | nil => cases hmem
  | append_singleton table row ih =>
    rw [List.map_append, List.nodup_append] at hdistinct
    obtain ⟨htable, -, hnew⟩ := hdistinct
    rw [find?_ofTable_concat]
    rcases List.mem_append.1 hmem with hmem | hmem
    · have hne : word ≠ row.1 := hnew word (List.mem_map_of_mem hmem) row.1 (by simp)
      rw [if_neg hne, ih htable hmem]
    · cases List.mem_singleton.1 hmem
      rw [if_pos rfl]

/-- Every word that begins a text is passed on the way down, and the last one is remembered. -/
theorem length_le_of_find? (hfind : t.find? other = some a) (hne : other ≠ [])
    (hother : other <+: cs) :
    ∃ b word rest, t.longest cs = some (b, word, rest) ∧ other.length ≤ word.length := by
  induction other generalizing t cs with
  | nil => exact absurd rfl hne
  | cons c other ih =>
    obtain ⟨behind, rfl⟩ := hother
    rw [find?, Option.bind_eq_some_iff] at hfind
    obtain ⟨u, hbranch, hfind⟩ := hfind
    rw [List.cons_append, longest, hbranch]
    by_cases hnil : other = []
    · subst hnil
      have hentry : u.entry = some a := hfind
      cases hlongest : u.longest behind with
      | none => exact ⟨a, [c], behind, by simp [hlongest, hentry], Nat.le_refl _⟩
      | some r => exact ⟨r.1, c :: r.2.1, r.2.2, by simp [hlongest], by simp⟩
    · obtain ⟨b, word, rest, hlongest, hle⟩ := ih hfind hnil (List.prefix_append other behind)
      exact ⟨b, c :: word, rest, by simp [hlongest], Nat.succ_le_succ hle⟩

end Trie

/-- Words with their entries. No word is empty, and none has two entries. -/
structure OperatorTable (α : Type) where
  rows : List (List Char × α)
  nonempty : ∀ row ∈ rows, row.1 ≠ []
  distinct : (rows.map (·.1)).Nodup

namespace OperatorTable

variable {T : OperatorTable α}

def words (T : OperatorTable α) : List (List Char) := T.rows.map (·.1)

def trie (T : OperatorTable α) : Trie α := .ofTable T.rows

theorem mem_words : word ∈ T.words ↔ ∃ a, (word, a) ∈ T.rows := by
  simp [words]

theorem find?_trie : T.trie.find? word = some a ↔ (word, a) ∈ T.rows :=
  Trie.find?_ofTable T.distinct

/-- A word that begins a text is no longer than the one that is read. -/
theorem exists_longest (hword : word ∈ T.words) (hbegins : word <+: cs) :
    ∃ a found rest, T.trie.longest cs = some (a, found, rest) ∧ word.length ≤ found.length := by
  obtain ⟨a, hmem⟩ := mem_words.1 hword
  exact Trie.length_le_of_find? (find?_trie.2 hmem) (T.nonempty _ hmem) hbegins

theorem isLongest_of_longest (h : T.trie.longest cs = some (a, word, rest)) :
    (word, a) ∈ T.rows ∧ IsLongest (· ∈ T.words) cs word := by
  have hmem := find?_trie.1 (Trie.find?_of_longest h)
  refine ⟨hmem, ⟨rest, (Trie.longest_split h).1⟩, mem_words.2 ⟨a, hmem⟩, ?_⟩
  intro other hother hbegins
  obtain ⟨b, found, behind, hfound, hle⟩ := exists_longest hother hbegins
  cases h.symm.trans hfound
  exact hle

theorem longest_eq_some : T.trie.longest cs = some (a, word, rest) ↔
    (word, a) ∈ T.rows ∧ IsLongest (· ∈ T.words) cs word ∧ word ++ rest = cs := by
  constructor
  · intro h
    obtain ⟨hmem, hlongest⟩ := isLongest_of_longest h
    exact ⟨hmem, hlongest, (Trie.longest_split h).1⟩
  · rintro ⟨hmem, hlongest, hsplit⟩
    obtain ⟨b, found, behind, hfound, hle⟩ := exists_longest hlongest.holds hlongest.start
    obtain ⟨hmem', hlongest'⟩ := isLongest_of_longest hfound
    have hlength : found.length = word.length :=
      Nat.le_antisymm (hlongest.longest found hlongest'.holds hlongest'.start) hle
    obtain ⟨rfl, rfl⟩ := List.append_inj ((Trie.longest_split hfound).1.trans hsplit.symm) hlength
    cases (find?_trie.2 hmem').symm.trans (find?_trie.2 hmem)
    exact hfound

theorem longest_eq_none : T.trie.longest cs = none ↔ ∀ word ∈ T.words, ¬ word <+: cs := by
  constructor
  · intro h word hword hbegins
    obtain ⟨_, _, _, hfound, -⟩ := exists_longest hword hbegins
    cases h.symm.trans hfound
  · intro h
    cases hlongest : T.trie.longest cs with
    | none => rfl
    | some r =>
      obtain ⟨a, word, rest⟩ := r
      obtain ⟨-, hmax⟩ := isLongest_of_longest hlongest
      exact absurd hmax.start (h word hmax.holds)

end OperatorTable

/-- The operators of the language. -/
def Punct.operators : OperatorTable Punct where
  rows := table
  nonempty := by decide
  distinct := by decide

namespace Scanned

variable {kind : α → Kind} {d : Dialect} {c : Char} {T : OperatorTable α}

/-- No blank, comment, string, number or word begins here, and no private name. -/
structure ReadsOperator (d : Dialect) (c : Char) (cs : List Char) : Prop where
  noBlank : Text.isBlank c = false
  noComment : c = '/' → cs.head? ≠ some '/' ∧ cs.head? ≠ some '*'
  noString : c ≠ '"' ∧ c ≠ '\''
  noNumber : NumberLiteral.starts (c :: cs) = false
  noWord : isIdentifierStart c = false
  noPrivateName : d = .withPrivate → c ≠ '#'

theorem tokenWith_of_readsOperator (h : ReadsOperator d c cs) :
    tokenWith t kind d c cs = operator t kind c cs := by
  have hsigil : (decide (d = .withPrivate) && c == '#') = false := by
    simpa using h.noPrivateName
  simp [tokenWith, hsigil, h.noString, h.noNumber, h.noWord]

theorem nextWith_of_readsOperator (h : ReadsOperator d c cs) :
    nextWith t kind d c cs = operator t kind c cs := by
  rw [nextWith_eq_token h.noBlank h.noComment, tokenWith_of_readsOperator h]

theorem operator_eq_ok (hword : (word, a) ∈ T.rows)
    (hlongest : IsLongest (· ∈ T.words) (c :: cs) word) (hsplit : word ++ rest = c :: cs) :
    operator T.trie kind c cs = .ok ⟨.token (kind a), word, rest⟩ := by
  rw [operator, OperatorTable.longest_eq_some.2 ⟨hword, hlongest, hsplit⟩]

theorem operator_eq_error {fault : LexicalFault} : operator T.trie kind c cs = .error fault ↔
    fault = .cause (.unexpectedCharacter c) ∧ ∀ word ∈ T.words, ¬ word <+: c :: cs := by
  rw [← OperatorTable.longest_eq_none, operator]
  cases T.trie.longest (c :: cs) with
  | none => simp [eq_comm]
  | some r => simp

end Scanned

namespace TokenStream

variable {kind : α → Kind} {d : Dialect} {fuel : Nat} {place : Place} {newline : Bool} {c : Char}
  {T : OperatorTable α}

theorem scanWith_operator (h : Scanned.ReadsOperator d c cs) (hword : (word, a) ∈ T.rows)
    (hlongest : IsLongest (· ∈ T.words) (c :: cs) word) (hsplit : word ++ rest = c :: cs) :
    scanWith T.trie kind d (fuel + 1) place newline (c :: cs) = do
      let s ← scanWith T.trie kind d fuel (place.after word) false rest
      return { s with tokens := ⟨kind a, place, newline⟩ :: s.tokens } := by
  rw [scanWith, Scanned.nextWith_of_readsOperator h, Scanned.operator_eq_ok hword hlongest hsplit]

theorem error_of_append {x : Except LexicalError TokenStream} {f : TokenStream → TokenStream}
    {e : LexicalError} (h : (do let s ← x; return f s) = .error e) : x = .error e := by
  cases x with
  | error e' => exact h
  | ok s => cases h

/-- What fails behind some characters fails behind the place before them. -/
theorem lt_of_after {spelling : List Char} {pos : Position} (hne : spelling ≠ [])
    (h : pos = (place.after spelling).toPosition ∨ (place.after spelling).toPosition.lt pos) :
    place.toPosition.lt pos := by
  have hgoes : place.toPosition.lt (place.after spelling).toPosition := Place.lt_after hne
  rcases h with rfl | hlt
  · exact hgoes
  · exact Position.lt_trans hgoes hlt

/-- Where a piece is read, a scan fails later, if what stands behind it does not fail before. -/
theorem lt_of_piece {s : Scanned} {e : LexicalError}
    (hnext : Scanned.nextWith t kind d c cs = .ok s)
    (hrest : ∀ {place newline}, scanWith t kind d fuel place newline s.rest = .error e →
      e.pos = place.toPosition ∨ place.toPosition.lt e.pos)
    (h : scanWith t kind d (fuel + 1) place newline (c :: cs) = .error e) :
    place.toPosition.lt e.pos := by
  have hne : s.spelling ≠ [] := (Scanned.nextWith_splits hnext).2
  rw [scanWith, hnext] at h
  obtain ⟨piece, spelling, rest⟩ := s
  cases piece with
  | trivia breaksLine => exact lt_of_after hne (hrest h)
  | token k => exact lt_of_after hne (hrest (error_of_append h))

/-- A scan fails where it begins, or later. -/
theorem scanWith_error {e : LexicalError} (h : scanWith t kind d fuel place newline cs = .error e) :
    e.pos = place.toPosition ∨ place.toPosition.lt e.pos := by
  induction fuel generalizing place newline cs with
  | zero => cases h
  | succ fuel ih =>
    cases cs with
    | nil => cases h
    | cons c cs =>
      cases hnext : Scanned.nextWith t kind d c cs with
      | ok s => exact Or.inr (lt_of_piece hnext ih h)
      | error fault =>
        simp only [scanWith, hnext, Except.error.injEq] at h
        exact Or.inl (congrArg LexicalError.pos h.symm)

/-- Where an operator is to be read, the scan fails exactly if there is none. -/
theorem scanWith_operator_error (h : Scanned.ReadsOperator d c cs) {fault : LexicalFault} :
    scanWith t kind d (fuel + 1) place newline (c :: cs) = .error ⟨fault, place.toPosition⟩ ↔
      Scanned.operator t kind c cs = .error fault := by
  have hnext : Scanned.nextWith t kind d c cs = Scanned.operator t kind c cs :=
    Scanned.nextWith_of_readsOperator h
  cases hread : Scanned.operator t kind c cs with
  | error found => simp [scanWith, hnext, hread]
  | ok s =>
    refine iff_of_false (fun herror => ?_) nofun
    exact absurd (lt_of_piece (hnext.trans hread) scanWith_error herror) (Position.not_lt_self _)

/-- Whatever a text begins with, the trie of a table reads the longest word of the table that the
text begins with, and exactly that word. If there is none, and only then, it reads nothing. So the
scan goes on behind this word wherever it looks for an operator, or fails at this place. -/
theorem operator_is_longest_word (T : OperatorTable α) (kind : α → Kind) (c : Char)
    (cs : List Char) :
    (((∃ word ∈ T.words, word <+: c :: cs) →
      ∃ row ∈ T.rows, IsLongest (· ∈ T.words) (c :: cs) row.1) ∧
    (∀ word a, (word, a) ∈ T.rows → IsLongest (· ∈ T.words) (c :: cs) word →
      ∃ rest, word ++ rest = c :: cs ∧
        Scanned.operator T.trie kind c cs = .ok ⟨.token (kind a), word, rest⟩) ∧
    ∀ fault, Scanned.operator T.trie kind c cs = .error fault ↔
      fault = .cause (.unexpectedCharacter c) ∧ ∀ word ∈ T.words, ¬ word <+: c :: cs) ∧
    ∀ d fuel place newline, Scanned.ReadsOperator d c cs →
      (∀ word a, (word, a) ∈ T.rows → IsLongest (· ∈ T.words) (c :: cs) word →
        ∃ rest, word ++ rest = c :: cs ∧
          scanWith T.trie kind d (fuel + 1) place newline (c :: cs) = do
            let s ← scanWith T.trie kind d fuel (place.after word) false rest
            return { s with tokens := ⟨kind a, place, newline⟩ :: s.tokens }) ∧
      ∀ fault, scanWith T.trie kind d (fuel + 1) place newline (c :: cs) =
          .error ⟨fault, place.toPosition⟩ ↔
        fault = .cause (.unexpectedCharacter c) ∧ ∀ word ∈ T.words, ¬ word <+: c :: cs := by
  refine ⟨⟨?_, ?_, fun _ => Scanned.operator_eq_error⟩, fun d fuel place newline h => ⟨?_, ?_⟩⟩
  · rintro ⟨word, hword, hbegins⟩
    obtain ⟨a, found, rest, hfound, -⟩ := OperatorTable.exists_longest hword hbegins
    obtain ⟨hmem, hlongest⟩ := OperatorTable.isLongest_of_longest hfound
    exact ⟨(found, a), hmem, hlongest⟩
  · intro word a hword hlongest
    obtain ⟨rest, hsplit⟩ := hlongest.start
    exact ⟨rest, hsplit, Scanned.operator_eq_ok hword hlongest hsplit⟩
  · intro word a hword hlongest
    obtain ⟨rest, hsplit⟩ := hlongest.start
    exact ⟨rest, hsplit, scanWith_operator h hword hlongest hsplit⟩
  · intro fault
    rw [scanWith_operator_error h, Scanned.operator_eq_error]

/-- The first of two points is an operator, for three points are one and two are not. -/
theorem twoPoints_read : Scanned.ReadsOperator .withPrivate '.' ['.', 'a'] ∧
    IsLongest (· ∈ Punct.operators.words) ['.', '.', 'a'] ['.'] ∧
    (∃ rest, ['.'] ++ rest = ['.', '.', 'a'] ∧
      Scanned.operator Punct.operators.trie .punct '.' ['.', 'a'] =
        .ok ⟨.token (.punct .dot), ['.'], rest⟩) ∧
    ∃ rest, ['.'] ++ rest = ['.', '.', 'a'] ∧
      scan .withPrivate 3 .start false ['.', '.', 'a'] = do
        let s ← scan .withPrivate 2 (Place.start.after ['.']) false rest
        return { s with tokens := ⟨.punct .dot, .start, false⟩ :: s.tokens } := by
  have hreads : Scanned.ReadsOperator .withPrivate '.' ['.', 'a'] :=
    ⟨by decide, by decide, by decide, by decide, by decide, by decide⟩
  have hmax : ∀ other ∈ Punct.operators.words, other <+: ['.', '.', 'a'] → other.length ≤ 1 := by
    decide
  have hlongest : IsLongest (· ∈ Punct.operators.words) ['.', '.', 'a'] ['.'] :=
    ⟨by decide, by decide, hmax⟩
  have hmem : (['.'], .dot) ∈ Punct.operators.rows := by decide
  obtain ⟨⟨-, hread, -⟩, hscan⟩ :=
    operator_is_longest_word Punct.operators .punct '.' ['.', 'a']
  obtain ⟨hscanned, -⟩ := hscan .withPrivate 2 .start false hreads
  exact ⟨hreads, hlongest, hread ['.'] .dot hmem hlongest, hscanned ['.'] .dot hmem hlongest⟩

end TokenStream

end JsClass
