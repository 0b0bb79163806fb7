import JsClass.Proofs.FailureReports
import JsClass.Proofs.Likeness.Alignment
import JsClass.Proofs.Likeness.Trees

/-!
Layout does not matter. Two texts whose tokens agree in kind and in the line breaks before them are
read alike: the trees differ in positions only, and positions that correspond are those of tokens
with the same number in their text.
-/
namespace JsClass

variable {m : Matching}

/-! Trees without positions. -/

/-- The tree with all positions dropped. -/
def Node.unplaced : Node → Node := recurse fun _ s => ⟨s, ⟨0, 0⟩⟩

theorem Node.unplaced_eq (n : Node) : n.unplaced = ⟨n.shape.map unplaced, ⟨0, 0⟩⟩ := by
  rw [unplaced, recurse_eq, ← unplaced]

namespace Node.Alike

variable {n n' : Node}

theorem unplaced_eq (hword : ∀ {w w'}, m.word w w' → w = w') (h : n.Alike m n') :
    n.unplaced = n'.unplaced := by
  induction n using Node.induction generalizing n' with
  | step n ih =>
    rw [Node.unplaced_eq, Node.unplaced_eq, h.shape.map_eq hword fun x hx _ hxy => ih x hx hxy]

end Node.Alike

/-! Positions that correspond. -/

/-- What the rules see of a token, its position apart. -/
def Token.content (t : Token) : Kind × Bool := (t.kind, t.newlineBefore)

/-- Positions of tokens with the same number. -/
def Corresponds (ts ts' : List Token) (p p' : Position) : Prop :=
  ∃ (i : Nat) (t t' : Token), ts[i]? = some t ∧ ts'[i]? = some t' ∧ t.pos = p ∧ t'.pos = p'

/-- The order of positions is the order of the tokens. -/
theorem lt_eq_decide {ts : List Token} (h : ts.Pairwise fun t u => t.pos.lt u.pos) {i j : Nat}
    {t u : Token} (ht : ts[i]? = some t) (hu : ts[j]? = some u) :
    t.pos.lt u.pos = decide (i < j) := by
  obtain ⟨hi, rfl⟩ := List.getElem?_eq_some_iff.1 ht
  obtain ⟨hj, rfl⟩ := List.getElem?_eq_some_iff.1 hu
  rw [List.pairwise_iff_getElem] at h
  rcases Nat.lt_trichotomy i j with hij | rfl | hij
  · simp [hij, h i j hi hj hij]
  · simpa using Position.not_lt_self _
  · have hnot := Position.not_lt_of_lt (h j i hj hi hij)
    have hle : ¬ i < j := by omega
    simpa [hle] using hnot

theorem Corresponds.lt_eq {ts ts' : List Token} (h : ts.Pairwise fun t u => t.pos.lt u.pos)
    (h' : ts'.Pairwise fun t u => t.pos.lt u.pos) {p p' q q' : Position}
    (hp : Corresponds ts ts' p p') (hq : Corresponds ts ts' q q') : p.lt q = p'.lt q' := by
  obtain ⟨i, t, t', ht, ht', rfl, rfl⟩ := hp
  obtain ⟨j, u, u', hu, hu', rfl, rfl⟩ := hq
  rw [lt_eq_decide h ht hu, lt_eq_decide h' ht' hu']

/-- Positions are matched by the numbers of their tokens, private words by what they are. -/
def Matching.byNumber (ts ts' : List Token) (h : ts.Pairwise fun t u => t.pos.lt u.pos)
    (h' : ts'.Pairwise fun t u => t.pos.lt u.pos) : Matching where
  pos := Corresponds ts ts'
  word := Eq
  token _ _ := True
  pos_lt := Corresponds.lt_eq h h'
  word_eq := Matching.equal.word_eq
  word_fixed := Matching.equal.word_fixed

section Streams

variable {s s' : TokenStream} (h : s.toList.Pairwise fun t u => t.pos.lt u.pos)
  (h' : s'.toList.Pairwise fun t u => t.pos.lt u.pos)

theorem toList_alike (hsame : s.toList.map Token.content = s'.toList.map Token.content) :
    List.Forall₂ (Token.Alike (.byNumber s.toList s'.toList h h')) s.toList s'.toList := by
  have hlength : s.toList.length = s'.toList.length := by
    simpa using congrArg List.length hsame
  refine List.forall₂_iff_get.2 ⟨hlength, fun i hi hi' => ?_⟩
  have hcontent : (s.toList.get ⟨i, hi⟩).content = (s'.toList.get ⟨i, hi'⟩).content := by
    have := congrArg (·[i]?) hsame
    simpa [hi, hi'] using this
  obtain ⟨hkind, hnewline⟩ := Prod.mk.inj hcontent
  refine ⟨?_, hnewline, ⟨i, _, _, List.getElem?_eq_getElem hi, List.getElem?_eq_getElem hi', rfl,
    rfl⟩, trivial⟩
  rw [← hkind]
  cases (s.toList.get ⟨i, hi⟩).kind with
  | privateName w => exact .privateName rfl
  | _ => exact .same rfl

/-- Streams whose contents agree have as many tokens. -/
theorem tokens_alike (hsame : s.toList.map Token.content = s'.toList.map Token.content) :
    List.Forall₂ (Token.Alike (.byNumber s.toList s'.toList h h')) s.tokens s'.tokens ∧
      s.finish.Alike (.byNumber s.toList s'.toList h h') s'.finish := by
  have halike := toList_alike h h' hsame
  have hlength : s.tokens.length = s'.tokens.length := by
    simpa [TokenStream.toList] using halike.length_eq
  have htokens := List.forall₂_take s.tokens.length halike
  have hfinish := List.forall₂_drop s.tokens.length halike
  have htake (s : TokenStream) : s.toList.take s.tokens.length = s.tokens := List.take_left
  have hdrop (s : TokenStream) : s.toList.drop s.tokens.length = [s.finish] := List.drop_left
  rw [htake, hlength, htake] at htokens
  rw [hdrop, hlength, hdrop] at hfinish
  exact ⟨htokens, (List.forall₂_cons.1 hfinish).1⟩

/-- The tokens to come are those from the same number on. -/
def Alignment.byNumber (hsame : s.toList.map Token.content = s'.toList.map Token.content) :
    Alignment (.byNumber s.toList s'.toList h h') where
  streams ts ts' := ∃ k, ts = s.tokens.drop k ∧ ts' = s'.tokens.drop k
  alike := by
    rintro _ _ ⟨k, rfl, rfl⟩
    exact List.forall₂_drop k (tokens_alike h h' hsame).1
  tail := by
    rintro _ _ ⟨k, rfl, rfl⟩
    exact ⟨k + 1, List.tail_drop, List.tail_drop⟩

end Streams

/-! Outcomes. -/

/-- Outcomes that differ in positions only, and in those as the tokens do. -/
inductive SameUpToLayout (s s' : TokenStream) : Except Failure Parsed → Except Failure Parsed → Prop
  | read {p p' : Parsed}
    (body : p.program.body.map Node.unplaced = p'.program.body.map Node.unplaced)
    (sourceType : p.program.sourceType = p'.program.sourceType)
    (positions : List.Forall₂ (Corresponds s.toList s'.toList) (p.program.nodes.map Node.pos)
      (p'.program.nodes.map Node.pos))
    (reported : List.Forall₂
      (fun d d' => d.cause = d'.cause ∧ Corresponds s.toList s'.toList d.pos d'.pos)
      p.reported p'.reported) : SameUpToLayout s s' (.ok p) (.ok p')
  | rejected {d d' : Diagnostic} (cause : d.cause = d'.cause)
    (pos : Corresponds s.toList s'.toList d.pos d'.pos) :
    SameUpToLayout s s' (.error (.rejected d)) (.error (.rejected d'))
  | unreadable : SameUpToLayout s s' (.error .unreadable) (.error .unreadable)

theorem parse_of_tokenize {options : Options} {source : String} {s : TokenStream}
    (hs : tokenize .withPrivate source = .ok s) :
    parse options source = s.parse .withPrivate options := by
  rw [parse, parseWith, hs]
  rfl

/-- Texts whose tokens agree in kind and in the line breaks before them are both read, or both
refused for the same cause; all that differs is where the tokens stand. -/
theorem layout_changes_only_positions {source source' : String} {s s' : TokenStream}
    (options : Options) (hs : tokenize .withPrivate source = .ok s)
    (hs' : tokenize .withPrivate source' = .ok s')
    (hsame : s.toList.map Token.content = s'.toList.map Token.content) :
    SameUpToLayout s s' (parse options source) (parse options source') := by
  have hsorted := (TokenStream.covers_of_tokenize hs).pairwise_lt
  have hsorted' := (TokenStream.covers_of_tokenize hs').pairwise_lt
  have hrun := (Alignment.byNumber hsorted hsorted' hsame).statements .withPrivate options
    ⟨0, rfl, rfl⟩ (tokens_alike hsorted hsorted' hsame).2 fun _ _ _ h => Or.inl h
  rw [parse_of_tokenize hs, parse_of_tokenize hs', TokenStream.parse, TokenStream.parse]
  have hfault := @statements_fault .withPrivate options source s
  generalize s.statements .withPrivate options = r at hrun hfault
  generalize s'.statements .withPrivate options = r' at hrun
  cases hrun with
  | ok hbody hstate =>
    refine .read ?_ rfl ?_ (hstate.reported.imp fun _ _ h => ⟨h.cause, h.pos⟩)
    · exact map_eq_of_forall₂ hbody fun _ _ _ h => h.unplaced_eq id
    · exact nodes_pos hbody
  | error hsame _ =>
    cases hsame with
    | rejected hd => exact .rejected (hd.cause_eq id) hd.pos
    | unreadableNumber => exact .unreadable
    | noClass | exhausted =>
      obtain ⟨_, hrejected⟩ | ⟨-, hdoubt⟩ := hfault hs rfl
      · cases hrejected
      · cases hdoubt <;> contradiction

/-- A class on one line, with a problem that is recorded, and the same class in another layout and
with another spelling of its string. -/
def narrowText : String := "class A\x7b#x='a';get y(b)\x7breturn this.#x\x7d\x7d"

def wideText : String :=
  "/* A */ class  A  \x7b #x = '\\x61' ; get y ( b ) \x7b return this . #x \x7d \x7d // end"

theorem wideText_read_as_narrowText : ∃ s s', tokenize .withPrivate narrowText = .ok s ∧
    tokenize .withPrivate wideText = .ok s' ∧
    s.toList.map Token.content = s'.toList.map Token.content ∧ s.tokens ≠ s'.tokens ∧
    (parse .default narrowText).toOption.isSome ∧
    SameUpToLayout s s' (parse .default narrowText) (parse .default wideText) := by
  have hread : ((tokenize .withPrivate narrowText).toOption.bind fun s =>
      (tokenize .withPrivate wideText).toOption.map fun s' =>
        decide (s.toList.map Token.content = s'.toList.map Token.content ∧ s.tokens ≠ s'.tokens)) =
      some true := by
    decide +kernel
  have hparsed : (parse .default narrowText).toOption.isSome := by decide +kernel
  cases hs : tokenize .withPrivate narrowText with
  | error e => simp [hs, Except.toOption] at hread
  | ok s =>
    cases hs' : tokenize .withPrivate wideText with
    | error e => simp [hs, hs', Except.toOption] at hread
    | ok s' =>
      obtain ⟨hsame, hne⟩ : s.toList.map Token.content = s'.toList.map Token.content ∧
          s.tokens ≠ s'.tokens := by
        simpa [hs, hs', Except.toOption] using hread
      exact ⟨s, s', rfl, rfl, hsame, hne, hparsed,
        layout_changes_only_positions .default hs hs' hsame⟩

end JsClass
