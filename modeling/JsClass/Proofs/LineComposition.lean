import JsClass.Proofs.Grammar.Success
import JsClass.Proofs.ReportedPositions
import JsClass.Proofs.Token.Followed

/-!
Texts in lines one below the other. A line feed between two texts ends whatever the first one ends
with, and the second text is read as if it stood alone, further down.
-/
namespace JsClass

variable {pre cs behind : List Char} {s t : TokenStream} {d : Dialect} {newline : Bool}

namespace Place

variable {p : Place} {c : Char} {lines chars : Nat}

/-- The place some lines and characters further on, at the same column. -/
def moved (lines chars : Nat) (p : Place) : Place := ⟨⟨p.line + lines, p.col⟩, p.offset + chars⟩

theorem next_moved : (p.moved lines chars).next c = (p.next c).moved lines chars := by
  by_cases hc : c = '\n'
  · simp [next, moved, hc]
    omega
  · simp [next, moved, hc]
    omega

theorem after_moved : (p.moved lines chars).after cs = (p.after cs).moved lines chars := by
  induction cs generalizing p with
  | nil => rfl
  | cons c cs ih => rw [after_cons, after_cons, next_moved, ih]

/-- Behind a line feed places are those of the text behind it, moved by what is before it. -/
theorem start_after_line (pre cs : List Char) : start.after (pre ++ '\n' :: cs) =
    (start.after cs).moved (1 + pre.count '\n') (pre.length + 1) := by
  have hline : start.after (pre ++ ['\n']) =
      start.moved (1 + pre.count '\n') (pre.length + 1) := by
    rw [start_after]
    simp [start, moved]
    omega
  rw [List.append_cons, after_append, hline, after_moved]

end Place

namespace Token

def moved (lines chars : Nat) (t : Token) : Token := { t with place := t.place.moved lines chars }

/-- The token as it is behind a line break. -/
def marked (t : Token) : Token := { t with newlineBefore := true }

end Token

namespace TokenStream

def moved (lines chars : Nat) (s : TokenStream) : TokenStream :=
  ⟨s.tokens.map (.moved lines chars), s.finish.moved lines chars⟩

theorem toList_moved (lines chars : Nat) (s : TokenStream) :
    (s.moved lines chars).toList = s.toList.map (.moved lines chars) := by
  simp [toList, moved]

/-- A bound that covers a text covers what is left behind a piece, and the turn for the piece. -/
theorem exists_fuel {c : Char} {fuel : Nat} {piece : Scanned}
    (hnext : Scanned.next d c cs = .ok piece) (hfuel : (c :: cs).length ≤ fuel) :
    ∃ n, fuel = n + 1 ∧ piece.rest.length ≤ n := by
  obtain ⟨n, rfl⟩ := Nat.exists_eq_add_of_le' (Nat.le_trans (Nat.le_add_left 1 _) hfuel)
  exact ⟨n, rfl, Nat.le_trans (Scanned.next_shorter hnext) (Nat.le_of_succ_le_succ hfuel)⟩

/-- A text that can be read piece by piece is scanned. -/
theorem scan_of_scans {fuel : Nat} (h : Scans d pre newline cs s) (hfuel : cs.length ≤ fuel) :
    scan d fuel (Place.start.after pre) newline cs = .ok s := by
  induction h generalizing fuel with
  | done => rw [scan_nil]
  | trivia hsplit hnext h ih =>
    obtain ⟨fuel, rfl, hrest⟩ := exists_fuel hnext hfuel
    rw [scan_cons, hnext]
    simp only [← Place.after_append, ih hrest]
  | token hsplit hnext h ih =>
    obtain ⟨fuel, rfl, hrest⟩ := exists_fuel hnext hfuel
    rw [scan_cons, hnext]
    simp only [← Place.after_append, ih hrest]
    rfl

theorem tokenize_of_scans {source : String} (h : Scans d [] false source.toList s) :
    tokenize d source = .ok s :=
  tokenize_eq_ok.2 (scan_of_scans h (Nat.le_refl _))

/-- A text is scanned below a line as it is scanned alone. -/
theorem Scans.moved (base : List Char) (h : Scans d pre newline cs s) :
    Scans d (base ++ '\n' :: pre) newline cs
      (s.moved (1 + base.count '\n') (base.length + 1)) := by
  induction h with
  | done pre newline =>
    have hdone := Scans.done (d := d) (base ++ '\n' :: pre) newline
    rwa [Place.start_after_line] at hdone
  | trivia hsplit hnext h ih =>
    rw [← List.cons_append, ← List.append_assoc] at ih
    exact .trivia hsplit hnext ih
  | @token pre newline _ _ _ _ kind _ hsplit hnext h ih =>
    rw [← List.cons_append, ← List.append_assoc] at ih
    have htoken := @Scans.token d (base ++ '\n' :: pre) newline _ _ _ _ kind _ hsplit hnext ih
    rwa [Place.start_after_line] at htoken

/-- All that a line break before a text changes is the mark of its first token. -/
theorem Scans.marked (h : Scans d pre newline cs s) :
    ∃ t, Scans d pre true cs t ∧ t.toList = s.toList.modifyHead Token.marked := by
  induction h with
  | done pre newline => exact ⟨_, .done pre true, rfl⟩
  | trivia hsplit hnext h ih =>
    obtain ⟨t, ht, hlist⟩ := ih
    exact ⟨t, .trivia hsplit hnext ht, hlist⟩
  | token hsplit hnext h => exact ⟨_, .token hsplit hnext h, rfl⟩

theorem split_followed {c : Char} {spelling rest : List Char} (h : spelling ++ rest = c :: cs) :
    spelling ++ (rest ++ '\n' :: behind) = c :: (cs ++ '\n' :: behind) := by
  rw [← List.append_assoc, h, List.cons_append]

/-- A scan goes on behind a line feed. -/
theorem Scans.line (h : Scans d pre newline cs s)
    (hbehind : Scans d (pre ++ cs ++ ['\n']) true behind t) :
    Scans d pre newline (cs ++ '\n' :: behind) ⟨s.tokens ++ t.tokens, t.finish⟩ := by
  induction h with
  | done pre newline =>
    rw [List.append_nil] at hbehind
    refine .trivia (by simp) (Scanned.next_newline d behind) ?_
    rwa [Bool.or_true]
  | trivia hsplit hnext h ih =>
    rw [← hsplit, ← List.append_assoc] at hbehind
    exact .trivia (split_followed hsplit) (Scanned.next_followed hnext) (ih hbehind)
  | token hsplit hnext h ih =>
    rw [← hsplit, ← List.append_assoc] at hbehind
    exact .token (split_followed hsplit) (Scanned.next_followed hnext) (ih hbehind)

end TokenStream

/-- Two texts that have tokens have them one below the other as well: those of the first text
without its end, and those of the second one at the same columns, moved by the lines and characters
of the first. The first of these is behind a line break now, and nothing else is changed. -/
theorem tokens_of_lines (d : Dialect) (first second : String) (s t : TokenStream)
    (hs : tokenize d first = .ok s) (ht : tokenize d second = .ok t) :
    ∃ u, tokenize d (first ++ "\n" ++ second) = .ok u ∧
      u.toList = s.tokens ++ (t.toList.map (.moved (1 + first.toList.count '\n')
        (first.toList.length + 1))).modifyHead Token.marked := by
  obtain ⟨u, hu, hlist⟩ := ((TokenStream.scans_of_tokenize ht).moved first.toList).marked
  have hlines := (TokenStream.scans_of_tokenize hs).line hu
  have htext : (first ++ "\n" ++ second).toList = first.toList ++ '\n' :: second.toList := by simp
  rw [← htext] at hlines
  refine ⟨_, TokenStream.tokenize_of_scans hlines, ?_⟩
  rw [← TokenStream.toList_moved, ← hlist, TokenStream.toList, TokenStream.toList,
    List.append_assoc]

/-- A text that ends in a comment, behind a string in two lines. -/
def upperText : String := "'a\\\nb' + #c // d"

/-- A text that begins with a blank and an operator. -/
def lowerText : String := " ++e"

theorem upperText_above_lowerText : ∃ s t u, tokenize .withPrivate upperText = .ok s ∧
    tokenize .withPrivate lowerText = .ok t ∧
    tokenize .withPrivate (upperText ++ "\n" ++ lowerText) = .ok u ∧
    s.tokens.map (·.kind) = [.string [.ofChar 'a', .ofChar 'b'], .punct .plus, .privateName "c"] ∧
    t.tokens = [⟨.punct .plusPlus, ⟨⟨1, 2⟩, 1⟩, false⟩, ⟨.name "e", ⟨⟨1, 4⟩, 3⟩, false⟩] ∧
    u.tokens.drop 3 =
      [⟨.punct .plusPlus, ⟨⟨3, 2⟩, 18⟩, true⟩, ⟨.name "e", ⟨⟨3, 4⟩, 20⟩, false⟩] ∧
    u.toList = s.tokens ++ (t.toList.map (.moved (1 + upperText.toList.count '\n')
      (upperText.toList.length + 1))).modifyHead Token.marked := by
  have hupper : (tokenize .withPrivate upperText).toOption.map (·.tokens.map (·.kind)) =
      some [.string [.ofChar 'a', .ofChar 'b'], .punct .plus, .privateName "c"] := by
    decide +kernel
  have hlower : (tokenize .withPrivate lowerText).toOption.map (·.tokens) =
      some [⟨.punct .plusPlus, ⟨⟨1, 2⟩, 1⟩, false⟩, ⟨.name "e", ⟨⟨1, 4⟩, 3⟩, false⟩] := by
    decide +kernel
  have hboth : (tokenize .withPrivate (upperText ++ "\n" ++ lowerText)).toOption.map
      (·.tokens.drop 3) =
      some [⟨.punct .plusPlus, ⟨⟨3, 2⟩, 18⟩, true⟩, ⟨.name "e", ⟨⟨3, 4⟩, 20⟩, false⟩] := by
    decide +kernel
  obtain ⟨s, hs, hkinds⟩ := exists_of_toOption hupper
  obtain ⟨t, ht, htokens⟩ := exists_of_toOption hlower
  obtain ⟨u, hu, hbehind⟩ := exists_of_toOption hboth
  obtain ⟨u', hu', hlist⟩ := tokens_of_lines .withPrivate upperText lowerText s t hs ht
  cases hu.symm.trans hu'
  exact ⟨s, t, u, hs, ht, hu, hkinds, htokens, hbehind, hlist⟩

end JsClass
