import Mathlib.Data.List.TakeWhile
import JsClass.Proofs.ClassLegality
import JsClass.Proofs.Numeral.Legible
import JsClass.Proofs.TokenContent
import JsClass.Proofs.TokenCover

/-!
The words of private names. They are made of identifier characters and never empty, but the first
character may be a number that begins no identifier, and only otherwise is such a word one.
-/
namespace JsClass

variable {c : Char} {cs : List Char} {d : Dialect}

/-! Identifiers. -/

theorem Text.isBlank_of_isLetter (h : isLetter c) : isBlank c = false := by
  have hclear : ∀ r ∈ blankRanges, letterRanges.avoids r.1 r.2 := by decide +kernel
  rw [Bool.eq_false_iff]
  intro hblank
  obtain ⟨r, hr, hlo, hhi⟩ := Ranges.exists_of_contains hblank
  cases h.symm.trans (Ranges.contains_eq_false (hclear r hr) hlo hhi)

theorem Text.isDigit_of_isLetter (h : isLetter c) : isDigit c = false :=
  isDigit_eq_false (by decide +kernel) (by decide +kernel) h

/-- What no letter is, the underscore and the dollar sign apart, begins no identifier. -/
theorem eq_false_of_isIdentifierStart {f : Char → Bool} (h : isIdentifierStart c)
    (hletter : Text.isLetter c → f c = false) (hlow : f '_' = false) (hdollar : f '$' = false) :
    f c = false := by
  simp only [isIdentifierStart, Bool.or_eq_true, beq_iff_eq] at h
  rcases h with (h | rfl) | rfl
  · exact hletter h
  · exact hlow
  · exact hdollar

theorem isBlank_of_isIdentifierStart (h : isIdentifierStart c) : Text.isBlank c = false :=
  eq_false_of_isIdentifierStart h Text.isBlank_of_isLetter (by decide) (by decide)

theorem isDigit_of_isIdentifierStart (h : isIdentifierStart c) : Text.isDigit c = false :=
  eq_false_of_isIdentifierStart h Text.isDigit_of_isLetter (by decide) (by decide)

/-- Where an identifier begins, a word is read. -/
theorem Scanned.next_of_isIdentifierStart (hc : isIdentifierStart c) :
    next d c cs = .ok (word (c :: cs)) := by
  have hne : ∀ x, isIdentifierStart x = false → c ≠ x := by
    rintro x hx rfl
    rw [hx] at hc
    cases hc
  have hslash : c ≠ '/' := hne _ (by decide)
  have hsigil : c ≠ '#' := hne _ (by decide)
  have hquotes : c ≠ '"' ∧ c ≠ '\'' := ⟨hne _ (by decide), hne _ (by decide)⟩
  have hstarts : NumberLiteral.starts (c :: cs) = false := by
    have hdigit : Text.isDigit c = false := isDigit_of_isIdentifierStart hc
    unfold NumberLiteral.starts
    split
    · next heq => cases heq
    · next heq => exact absurd (List.cons.inj heq).1 (hne _ (by decide))
    · next heq => exact (List.cons.inj heq).1 ▸ hdigit
  rw [next_eq_token (isBlank_of_isIdentifierStart hc) hslash]
  simp [token, tokenWith, hsigil, hquotes, hstarts, hc]

/-- An identifier is read as one word. -/
theorem tokenize_identifier (hc : isIdentifierStart c) (hcs : ∀ x ∈ cs, isIdentifierPart x) :
    tokenize d (.ofList (c :: cs)) =
      .ok ⟨[⟨.ofWord (.ofList (c :: cs)), .start, false⟩],
        ⟨.eof, Place.start.after (c :: cs), false⟩⟩ := by
  have hall : ∀ x ∈ c :: cs, isIdentifierPart x :=
    List.forall_mem_cons.2 ⟨isIdentifierPart_of_start hc, hcs⟩
  have hword : Scanned.word (c :: cs) = ⟨.token (.ofWord (.ofList (c :: cs))), c :: cs, []⟩ := by
    rw [Scanned.word, splitWhile, List.takeWhile_eq_self_iff.2 hall,
      List.dropWhile_eq_nil_iff.2 hall]
  rw [tokenize_eq_ok, TokenStream.ofString, String.toList_ofList, TokenStream.ofChars,
    List.length_cons, TokenStream.scan_cons, Scanned.next_of_isIdentifierStart hc, hword]
  simp only [bind, Except.bind, pure, Except.pure, TokenStream.scan_nil]

/-! Private names. -/

/-- The word of a private name goes as far as the identifier characters behind its sign. -/
theorem Scanned.privateName_part {w : String} {spelling rest : List Char}
    (h : next d c cs = .ok ⟨.token (.privateName w), spelling, rest⟩) :
    ∀ x ∈ w.toList, isIdentifierPart x := by
  generalize hkind : Kind.privateName w = kind at h
  cases isToken_of_next h with
  | @privateName word rest hc hsplit =>
    cases hkind
    rw [String.toList_ofList, ← show (splitWhile isIdentifierPart cs).1 = word by rw [hsplit]]
    exact splitWhile_all
  | word => cases (congrArg Kind.word? hkind).trans (Kind.word?_ofWord _)
  | string | number | punct => cases hkind

/-- No private name of a tree is without a word. -/
theorem Part.Formed.privateName_ne {p : Part} (h : p.Formed) {w : String}
    (hw : p.node.shape = .privateName w) : w ≠ "" := by
  have hallowed := h.allowed
  simp only [Allowed, hw] at hallowed
  cases hr : p.role with
  | label =>
    rw [hr] at hallowed
    exact hallowed.2
  | ordinary | member =>
    rw [hr] at hallowed
    exact hallowed.elim

/-- The word of a private name is read back as one word, unless it begins with a number that begins
no identifier. -/
theorem private_words (options : Options) (source : String) (parsed : Parsed)
    (h : parse options source = .ok parsed) :
    ∀ n ∈ parsed.program.nodes, ∀ w, n.shape = .privateName w →
      ∃ c cs, w = .ofList (c :: cs) ∧ (∀ x ∈ cs, isIdentifierPart x) ∧
        (isIdentifierStart c = false ∧ Text.isNumeric c ∨ isIdentifierStart c ∧ ∀ d, tokenize d w =
          .ok ⟨[⟨.ofWord w, .start, false⟩], ⟨.eof, Place.start.after (c :: cs), false⟩⟩) := by
  intro n hn w hw
  obtain ⟨s, t, hs, hstatements⟩ := parse_eq_ok h
  have hleaf : (Kind.privateName w, n.pos) ∈ parsed.program.nodes.filterMap Node.leaf? :=
    List.mem_filterMap.2 ⟨n, hn, by simp [Node.leaf?, hw]⟩
  rw [(written_of_parse hs h).leaves] at hleaf
  obtain ⟨x, hx, hxleaf⟩ := List.mem_filterMap.1 hleaf
  have hkind : x.kind = .privateName w := by
    unfold Token.leaf? at hxleaf
    split at hxleaf
    · exact (Prod.mk.inj (Option.some.inj hxleaf)).1
    · cases hxleaf
  obtain ⟨-, -, hpart⟩ := TokenStream.spelled_of_tokenize
    (P := fun kind _ => ∀ w, kind = .privateName w → ∀ c ∈ w.toList, isIdentifierPart c)
    (fun hnext _ hkind => Scanned.privateName_part (hkind ▸ hnext)) hs x hx
  have hparts := hpart w hkind
  obtain ⟨q, hq, rfl, -⟩ := TokenStream.formed_of_mem hstatements hn
  have hne : w.toList ≠ [] := fun hnil => hq.privateName_ne hw (String.toList_eq_nil_iff.1 hnil)
  obtain ⟨c, cs, hcs⟩ := List.exists_cons_of_ne_nil hne
  have hword : w = .ofList (c :: cs) := by rw [← hcs, String.ofList_toList]
  rw [hcs] at hparts
  obtain ⟨hc, hrest⟩ := List.forall_mem_cons.1 hparts
  refine ⟨c, cs, hword, hrest, ?_⟩
  cases hstart : isIdentifierStart c with
  | true => exact Or.inr ⟨rfl, fun d => hword ▸ tokenize_identifier hstart hrest⟩
  | false =>
    simp only [isIdentifierStart, Bool.or_eq_false_iff] at hstart
    exact Or.inl ⟨rfl, by simpa [isIdentifierPart, hstart] using hc⟩

/-- Private names that begin with a letter, a dollar sign and a digit. -/
def wordsText : String := "class A \x7b #b2; #$; m() \x7b return this.#1c \x7d #1c \x7d"

theorem wordsText_words : ∃ parsed, parse .default wordsText = .ok parsed ∧
    parsed.program.nodes.filterMap (·.privateName?.map (·.1)) = ["b2", "$", "1c", "1c"] ∧
    ∀ n ∈ parsed.program.nodes, ∀ w, n.shape = .privateName w →
      ∃ c cs, w = .ofList (c :: cs) ∧ (∀ x ∈ cs, isIdentifierPart x) ∧
        (isIdentifierStart c = false ∧ Text.isNumeric c ∨ isIdentifierStart c ∧ ∀ d, tokenize d w =
          .ok ⟨[⟨.ofWord w, .start, false⟩], ⟨.eof, Place.start.after (c :: cs), false⟩⟩) := by
  have hread : (parse .default wordsText).toOption.map
      (fun parsed => parsed.program.nodes.filterMap (·.privateName?.map (·.1))) =
        some ["b2", "$", "1c", "1c"] := by
    decide +kernel
  obtain ⟨parsed, hp, hnames⟩ := exists_of_toOption hread
  exact ⟨parsed, hp, hnames, private_words .default wordsText parsed hp⟩

/-- A class with a field that is called like a number. -/
def numberedText : String := "class A \x7b #1 \x7d"

/-- The word of a private name may begin with a digit, which begins no identifier. -/
theorem private_word_may_be_number : ¬ ∀ options source parsed,
    parse options source = .ok parsed →
      ∀ n ∈ parsed.program.nodes, ∀ w, n.shape = .privateName w →
        ∃ c cs, w = .ofList (c :: cs) ∧ isIdentifierStart c ∧ ∀ x ∈ cs, isIdentifierPart x := by
  intro h
  have hread : (parse .default numberedText).toOption.map
      (fun parsed => parsed.program.nodes.filterMap Node.privateName?) =
        some [("1", ⟨1, 11⟩)] := by
    decide +kernel
  obtain ⟨parsed, hp, hnames⟩ := exists_of_toOption hread
  have hmem : ("1", ⟨1, 11⟩) ∈ parsed.program.nodes.filterMap Node.privateName? := by
    rw [hnames]
    exact List.mem_singleton_self _
  obtain ⟨n, hn, hname⟩ := List.mem_filterMap.1 hmem
  have hshape : n.shape = .privateName "1" := by
    unfold Node.privateName? at hname
    split at hname
    · next hs => rw [hs, (Prod.mk.inj (Option.some.inj hname)).1]
    · cases hname
  obtain ⟨c, cs, hword, hstart, -⟩ := h .default numberedText parsed hp n hn "1" hshape
  obtain ⟨rfl, -⟩ := List.cons.inj (String.ofList_injective hword : ['1'] = c :: cs)
  exact absurd hstart (by decide)

end JsClass
