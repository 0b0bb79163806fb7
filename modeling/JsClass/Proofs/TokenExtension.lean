import JsClass.Parse
import JsClass.Proofs.Token.Spelling

/-!
Scanning with private names extends plain scanning. The two scanners read every piece alike that
does not start with a number sign; there the plain one stops, and the other one reads a private
name. So what the plain scanner reads is read alike, and so are its other complaints.
-/
namespace JsClass

variable {c : Char} {cs : List Char}

namespace Scanned

/-! Pieces. -/

theorem operator_numberSign (cs : List Char) :
    operator Punct.trie .punct '#' cs = .error (.cause (.unexpectedCharacter '#')) := by
  have hbranch : Punct.trie.branch? '#' = none := by decide +kernel
  rw [operator, Trie.longest, hbranch]

/-- A number sign starts neither a blank nor a comment. -/
theorem next_numberSign (d : Dialect) (cs : List Char) : next d '#' cs = token d '#' cs :=
  next_eq_token (by decide) (by decide)

/-- The plain scanner knows no token that starts with a number sign. -/
theorem next_numberSign_plain (cs : List Char) :
    next .plain '#' cs = .error (.cause (.unexpectedCharacter '#')) := by
  have hdigit : NumberLiteral.starts ('#' :: cs) = false := by
    unfold NumberLiteral.starts
    split
    · rfl
    · next h => cases h
    · next h =>
      cases h
      decide +kernel
  have hstart : isIdentifierStart '#' = false := by decide +kernel
  have htoken : token .plain '#' cs = operator Punct.trie .punct '#' cs := by
    simp [token, tokenWith, hdigit, hstart]
  rw [next_numberSign, htoken, operator_numberSign]

theorem next_numberSign_withPrivate (cs : List Char) :
    next .withPrivate '#' cs = .ok (privateName cs) := by
  rw [next_numberSign, token]
  rfl

/-- Apart from the number sign both scanners start alike. -/
theorem next_plain (hc : c ≠ '#') : next .plain c cs = next .withPrivate c cs := by
  have htoken : ∀ cs, tokenWith Punct.trie .punct .plain c cs =
      tokenWith Punct.trie .punct .withPrivate c cs := by
    intro cs
    simp [tokenWith, hc]
  simp only [next, nextWith, htoken]

/-- A plain token is no private name. -/
theorem next_kind {kind : Kind} {spelling rest : List Char}
    (h : next .plain c cs = .ok ⟨.token kind, spelling, rest⟩) : kind.isPrivateName = false := by
  cases isToken_of_next h with
  | privateName hc => cases hc.1
  | word =>
    unfold Kind.ofWord
    split <;> rfl
  | string | number | punct => rfl

end Scanned

/-! Streams. -/

/-- What the plain scanner says beside what the scanner with private names says: the same, and
there is no private name, or it stops at the first private name that the other one reads. -/
inductive TokenStream.Extends :
    Except LexicalError TokenStream → Except LexicalError TokenStream → Prop
  | read {s : TokenStream} (plain : ∀ t ∈ s.toList, t.kind.isPrivateName = false) :
    Extends (.ok s) (.ok s)
  | stopped {e : LexicalError} : Extends (.error e) (.error e)
  | numberSign {pos : Position} {r : Except LexicalError TokenStream}
    (first : ∀ s, r = .ok s →
      ∃ t, s.toList.find? (·.kind.isPrivateName) = some t ∧ t.pos = pos) :
    Extends (.error ⟨.cause (.unexpectedCharacter '#'), pos⟩) r

namespace TokenStream.Extends

variable {plain full : Except LexicalError TokenStream}

/-- Both scanners have read the same token, which is no private name. -/
theorem cons (h : Extends plain full) {x : Token} (hx : x.kind.isPrivateName = false) :
    Extends (do let s ← plain; return { s with tokens := x :: s.tokens })
      (do let s ← full; return { s with tokens := x :: s.tokens }) := by
  cases h with
  | @read s hs =>
    refine .read ?_
    intro t ht
    rcases List.mem_cons.1 ht with rfl | ht
    · exact hx
    · exact hs t ht
  | stopped => exact .stopped
  | numberSign hfirst =>
    refine .numberSign ?_
    intro s hs
    cases full with
    | error e => cases hs
    | ok s' =>
      cases hs
      obtain ⟨t, ht, hpos⟩ := hfirst s' rfl
      refine ⟨t, ?_, hpos⟩
      have hlist : toList { s' with tokens := x :: s'.tokens } = x :: s'.toList := rfl
      rw [hlist, List.find?_cons_of_neg (by simp [hx]), ht]

end TokenStream.Extends

/-- Wherever both scanners stand at the same place, they go on side by side. -/
theorem TokenStream.scan_extends (fuel : Nat) (place : Place) (newline : Bool) (cs : List Char) :
    Extends (scan .plain fuel place newline cs) (scan .withPrivate fuel place newline cs) := by
  have hend : ∀ place newline, Extends (.ok ⟨[], ⟨.eof, place, newline⟩⟩)
      (.ok ⟨[], ⟨.eof, place, newline⟩⟩) := by
    intro place newline
    refine .read ?_
    intro t ht
    rw [List.mem_singleton.1 ht]
    rfl
  induction fuel generalizing place newline cs with
  | zero => exact hend place newline
  | succ fuel ih =>
    cases cs with
    | nil => exact hend place newline
    | cons c cs =>
      rw [scan_cons, scan_cons]
      by_cases hc : c = '#'
      · -- the plain scanner stops here, whatever comes behind the private name
        subst hc
        rw [Scanned.next_numberSign_plain, Scanned.next_numberSign_withPrivate]
        refine .numberSign ?_
        intro s hs
        simp only [Scanned.privateName] at hs
        cases hrest : scan .withPrivate fuel
            (place.after ('#' :: (splitWhile isIdentifierPart cs).1)) false
            (splitWhile isIdentifierPart cs).2 with
        | error e =>
          rw [hrest] at hs
          cases hs
        | ok rest =>
          rw [hrest] at hs
          cases hs
          exact ⟨_, List.find?_cons_of_pos rfl, rfl⟩
      · rw [← Scanned.next_plain hc]
        cases hnext : Scanned.next .plain c cs with
        | error fault => exact .stopped
        | ok piece =>
          obtain ⟨kind, spelling, rest⟩ := piece
          cases kind with
          | trivia breaksLine => exact ih _ _ _
          | token kind => exact (ih _ _ _).cons (Scanned.next_kind hnext)

theorem TokenStream.find?_private_eq_none {s : TokenStream}
    (h : ∀ t ∈ s.toList, t.kind.isPrivateName = false) :
    s.toList.find? (·.kind.isPrivateName) = none := by
  rw [List.find?_eq_none]
  intro t ht
  simp [h t ht]

/-- The failure of a text that the plain scanner leaves at a number sign. -/
def Failure.atNumberSign (pos : Position) : Failure := .lexical (.unexpectedCharacter '#') pos

/-- How the two scanners take a text: alike, with or without a failure, or the plain one stops at
a number sign, where the first private name is if the other one reads the text. -/
theorem tokenize_cases (source : String) :
    (∃ s, tokenize .plain source = .ok s ∧ tokenize .withPrivate source = .ok s ∧
      ∀ t ∈ s.toList, t.kind.isPrivateName = false) ∨
    (∃ failure, tokenize .plain source = .error failure ∧
      tokenize .withPrivate source = .error failure) ∨
    ∃ pos, tokenize .plain source = .error (.atNumberSign pos) ∧
      ∀ s, tokenize .withPrivate source = .ok s →
        ∃ t, s.toList.find? (·.kind.isPrivateName) = some t ∧ t.pos = pos := by
  have hscan := TokenStream.scan_extends source.toList.length .start false source.toList
  unfold tokenize TokenStream.ofString TokenStream.ofChars
  generalize TokenStream.scan .plain source.toList.length .start false source.toList = plain
    at hscan
  generalize TokenStream.scan .withPrivate source.toList.length .start false source.toList = full
    at hscan
  cases hscan with
  | read hs => exact Or.inl ⟨_, rfl, rfl, hs⟩
  | stopped => exact Or.inr (Or.inl ⟨_, rfl, rfl⟩)
  | @numberSign pos _ hfirst =>
    refine Or.inr (Or.inr ⟨pos, rfl, ?_⟩)
    intro s h
    cases full with
    | error e => cases h
    | ok s' =>
      cases h
      exact hfirst s rfl

/-- What the plain scanner reads is read to the same tokens with private names, and none of them is
a private name; what it refuses otherwise than for a number sign is refused for the same failure.
And if a text is read with private names, the plain scanner reads the same tokens if none of them
is a private name, and else it stops at the first private name. -/
theorem tokens_extend_plain (source : String) :
    (∀ s, tokenize .plain source = .ok s → tokenize .withPrivate source = .ok s ∧
      ∀ t ∈ s.toList, t.kind.isPrivateName = false) ∧
    (∀ failure, tokenize .plain source = .error failure →
      (∀ pos, failure ≠ .atNumberSign pos) → tokenize .withPrivate source = .error failure) ∧
    (∀ s, tokenize .withPrivate source = .ok s →
      (∀ t ∈ s.toList, t.kind.isPrivateName = false) → tokenize .plain source = .ok s) ∧
    (∀ s t, tokenize .withPrivate source = .ok s →
      s.toList.find? (·.kind.isPrivateName) = some t →
      tokenize .plain source = .error (.atNumberSign t.pos)) := by
  rcases tokenize_cases source with ⟨s, hplain, hfull, hs⟩ | ⟨failure, hplain, hfull⟩ |
    ⟨pos, hplain, hfirst⟩
  · rw [hplain, hfull]
    refine ⟨?_, ?_, ?_, ?_⟩
    · rintro _ ⟨⟩
      exact ⟨rfl, hs⟩
    · rintro failure ⟨⟩
    · intro _ h _
      exact h
    · rintro _ t ⟨⟩ ht
      rw [TokenStream.find?_private_eq_none hs] at ht
      cases ht
  · rw [hplain, hfull]
    refine ⟨?_, ?_, ?_, ?_⟩
    · rintro s ⟨⟩
    · intro _ h _
      exact h
    · rintro s ⟨⟩
    · rintro s t ⟨⟩
  · rw [hplain]
    refine ⟨?_, ?_, ?_, ?_⟩
    · rintro s ⟨⟩
    · rintro failure ⟨⟩ hother
      exact absurd rfl (hother pos)
    · intro s h hs
      obtain ⟨t, ht, -⟩ := hfirst s h
      rw [TokenStream.find?_private_eq_none hs] at ht
      cases ht
    · intro s t h ht
      obtain ⟨u, hu, rfl⟩ := hfirst s h
      rw [ht] at hu
      cases hu
      rfl

/-- Number signs in a string and in comments, and then one that starts a private name. -/
def numberSignsText : String := "'#' /* # */ // #\nthis.#x + '\\x23'"

theorem numberSignsText_left_at_name : ∃ s t, tokenize .withPrivate numberSignsText = .ok s ∧
    s.toList.find? (·.kind.isPrivateName) = some t ∧ t.pos = ⟨2, 6⟩ ∧
    tokenize .plain numberSignsText = .error (.atNumberSign t.pos) := by
  have hread : ((tokenize .withPrivate numberSignsText).toOption.bind fun s =>
      (s.toList.find? (·.kind.isPrivateName)).map Token.pos) = some ⟨2, 6⟩ := by
    decide +kernel
  cases hs : tokenize .withPrivate numberSignsText with
  | error e => simp [hs, Except.toOption] at hread
  | ok s =>
    obtain ⟨t, ht, hpos⟩ : ∃ t, s.toList.find? (·.kind.isPrivateName) = some t ∧
        t.pos = ⟨2, 6⟩ := by
      simpa [hs, Except.toOption] using hread
    exact ⟨s, t, rfl, ht, hpos, (tokens_extend_plain numberSignsText).2.2.2 s t hs ht⟩

end JsClass
