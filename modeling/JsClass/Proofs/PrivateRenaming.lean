import Mathlib.Logic.Equiv.Basic
import JsClass.Proofs.Likeness.Alignment
import JsClass.Proofs.Likeness.Trees
import JsClass.Proofs.TokenCover

/-!
Private names matter only up to equality. To rename the private names of a text one to one is to
rename them in what reading the text gives: in the tree, or in the problem that ended reading. The
words that a rule looks at are to be kept.
-/
namespace JsClass

/-- A renaming of private words, one to one. It keeps the words that mean something for a member;
where private words are checked, it keeps all words that a check may stop at. -/
structure Renaming (options : Options) where
  word : String → String
  injective : Function.Injective word
  fixed : ∀ w ∈ ["", "constructor", "prototype"], word w = w
  reserved : options.reserved = .never → ∀ w, isOrdinaryWord w = false → word w = w

/-! What is renamed. -/

section

variable (r : String → String)

def Kind.rename : Kind → Kind
  | .privateName word => .privateName (r word)
  | kind => kind

def Token.rename (t : Token) : Token := { t with kind := t.kind.rename r }

def TokenStream.rename (s : TokenStream) : TokenStream :=
  ⟨s.tokens.map (Token.rename r), s.finish.rename r⟩

def Node.rename : Node → Node := recurse fun n s => ⟨s.renameWord r, n.pos⟩

/-- The tree is renamed, and what was recorded stays. -/
def Parsed.rename (p : Parsed) : Parsed :=
  ⟨⟨p.program.body.map (Node.rename r), p.program.sourceType⟩, p.reported⟩

/-- The token that stands at a position. -/
def TokenStream.tokenAt? (s : TokenStream) (pos : Position) : Option Token :=
  s.toList.find? (·.pos == pos)

/-- A cause names a private word, or it quotes the token at the problem. -/
def Cause.rename : Option Kind → Cause → Cause
  | _, .duplicatePrivate word => .duplicatePrivate (r word)
  | _, .undeclaredPrivate word => .undeclaredPrivate (r word)
  | some (.privateName word), .unexpectedToken _ => .unexpectedToken (.ofString ("#" ++ r word))
  | some (.privateName word), .restNotLast _ => .restNotLast (.ofString (r word))
  | _, cause => cause

def Diagnostic.rename (s : TokenStream) (d : Diagnostic) : Diagnostic :=
  ⟨d.cause.rename r ((s.tokenAt? d.pos).map Token.kind), d.pos⟩

/-- What reading the stream gives, with private words renamed. -/
def TokenStream.renameOutcome (s : TokenStream) : Except Failure Parsed → Except Failure Parsed
  | .ok parsed => .ok (parsed.rename r)
  | .error (.rejected d) => .error (.rejected (d.rename r s))
  | .error failure => .error failure

end

section

variable {r : String → String} {s : TokenStream}

theorem Node.rename_eq (n : Node) :
    n.rename r = ⟨(n.shape.map (Node.rename r)).renameWord r, n.pos⟩ := by
  rw [rename, recurse_eq, ← rename]

/-! Causes. -/

namespace Cause

theorem rename_plain {k : Cause} (h : k.quotes = false) (quoted : Option Kind) :
    k.rename r quoted = k := by
  fun_cases Cause.rename r quoted k with
  | case5 => rfl
  | _ => cases h

theorem misplaced_rename (k : Kind) : (k.rename r).misplaced = k.misplaced.rename r (some k) := by
  cases k <;> rfl

theorem restNotLast_rename (k : Kind) :
    .restNotLast (k.rename r).text = (Cause.restNotLast k.text).rename r (some k) := by
  cases k <;> rfl

end Cause

/-- Positions tell tokens apart. -/
theorem find?_pos {ts : List Token} (h : ts.Pairwise fun t u => t.pos.lt u.pos) {t : Token}
    (ht : t ∈ ts) : ts.find? (·.pos == t.pos) = some t := by
  induction h with
  | nil => cases ht
  | @cons u ts hu _ ih =>
    rcases List.mem_cons.1 ht with rfl | ht
    · exact List.find?_cons_of_pos (beq_self_eq_true _)
    · have hne : u.pos ≠ t.pos := by
        intro heq
        exact Position.not_lt_self t.pos (heq ▸ hu t ht)
      rw [List.find?_cons_of_neg (by simpa using hne)]
      exact ih ht

/-- A problem at a token is renamed as the token is. -/
theorem Diagnostic.rename_at (h : s.toList.Pairwise fun t u => t.pos.lt u.pos) {t : Token}
    (ht : t ∈ s.toList) (k : Cause) :
    Diagnostic.rename r s ⟨k, t.pos⟩ = ⟨k.rename r (some t.kind), t.pos⟩ := by
  rw [Diagnostic.rename, TokenStream.tokenAt?, find?_pos h ht]
  rfl

end

/-! Runs side by side. -/

variable {options : Options} {r : Renaming options} {s : TokenStream}

/-- Positions stay, and each private word is matched with its new one. -/
def Matching.renamed (r : Renaming options) (s : TokenStream) : Matching where
  pos := Eq
  word w w' := w' = r.word w
  token t t' := t ∈ s.toList ∧ t' = t.rename r.word
  pos_lt := Matching.equal.pos_lt
  word_eq := by
    rintro w _ v _ rfl rfl
    exact r.injective.eq_iff.symm
  word_fixed := by
    rintro w _ rfl v hv
    rw [← r.injective.eq_iff, r.fixed v hv]

theorem Token.rename_alike {t : Token} (ht : t ∈ s.toList) :
    t.Alike (.renamed r s) (t.rename r.word) := by
  refine ⟨?_, rfl, rfl, ht, rfl⟩
  obtain ⟨kind, place, newline⟩ := t
  cases kind with
  | privateName word => exact .privateName rfl
  | _ => exact .same rfl

/-- The tokens to come are the same ones, renamed. -/
def Alignment.renamed (r : Renaming options) (s : TokenStream) : Alignment (.renamed r s) where
  streams ts ts' := (∀ t ∈ ts, t ∈ s.toList) ∧ ts' = ts.map (Token.rename r.word)
  alike := by
    rintro ts _ ⟨hts, rfl⟩
    rw [List.forall₂_map_right_iff]
    exact List.forall₂_same.2 fun t ht => Token.rename_alike (hts t ht)
  tail := by
    rintro ts _ ⟨hts, rfl⟩
    exact ⟨fun t ht => hts t (List.mem_of_mem_tail ht), List.map_tail.symm⟩

/-- A check that stops at one of two matched words keeps both. -/
theorem Renaming.word_checked (r : Renaming options) (hnever : options.reserved = .never)
    (w : String) : w = r.word w ∨ isOrdinaryWord w ∧ isOrdinaryWord (r.word w) := by
  by_cases hw : isOrdinaryWord w
  · by_cases hr : isOrdinaryWord (r.word w)
    · exact Or.inr ⟨hw, hr⟩
    · have hkept := r.reserved hnever (r.word w) (by simpa using hr)
      exact Or.inl (r.injective hkept).symm
  · exact Or.inl (r.reserved hnever w (by simpa using hw)).symm

theorem Alignment.statements_renamed (r : Renaming options) (s : TokenStream) :
    (renamed r s).Replies (List.Forall₂ (Node.Alike (.renamed r s)))
      (s.statements .withPrivate options) ((s.rename r.word).statements .withPrivate options) := by
  refine statements .withPrivate options ⟨?_, rfl⟩ (Token.rename_alike ?_) ?_
  · exact fun t ht => List.mem_append_left _ ht
  · exact List.mem_append_right _ (List.mem_singleton.2 rfl)
  · rintro hnever w _ rfl
    exact r.word_checked hnever w

/-! What the runs give. -/

theorem Node.Alike.eq_rename {n n' : Node} (h : n.Alike (.renamed r s) n') :
    n' = n.rename r.word := by
  induction n using Node.induction generalizing n' with
  | step n ih =>
    have hshape : (n.shape.map (Node.rename r.word)).renameWord r.word =
        (n'.shape.map id).renameWord id :=
      h.shape.renameWord_map_eq (fun hw => hw.symm) fun x hx _ hxy => (ih x hx hxy).symm
    rw [Shape.map_id, Shape.renameWord_id] at hshape
    obtain ⟨shape', pos'⟩ := n'
    have hpos : n.pos = pos' := h.pos
    rw [Node.rename_eq, hshape, hpos]
    rfl

theorem Diagnostic.AlikeFatal.eq_rename {d d' : Diagnostic}
    (hsorted : s.toList.Pairwise fun t u => t.pos.lt u.pos)
    (h : AlikeFatal (.renamed r s) d d') : d' = d.rename r.word s := by
  cases h with
  | same _ hplain hp =>
    cases hp
    rw [Diagnostic.rename, Cause.rename_plain hplain]
  | misplaced ht =>
    obtain ⟨hmem, rfl⟩ := ht.token
    rw [Diagnostic.rename_at hsorted hmem, ← Cause.misplaced_rename]
    rfl
  | restNotLast ht =>
    obtain ⟨hmem, rfl⟩ := ht.token
    rw [Diagnostic.rename_at hsorted hmem, ← Cause.restNotLast_rename]
    rfl
  | duplicatePrivate hw hp =>
    cases hw
    cases hp
    rfl
  | undeclaredPrivate hw hp =>
    cases hw
    cases hp
    rfl

theorem Diagnostic.AlikeSoft.eq {d d' : Diagnostic} (h : AlikeSoft (.renamed r s) d d') :
    d = d' := by
  obtain ⟨cause, pos⟩ := d
  obtain ⟨cause', pos'⟩ := d'
  rw [show cause = cause' from h.cause, show pos = pos' from h.pos]

/-- To read a text whose private names were renamed is to rename them in what reading gives. -/
theorem parse_commutes_with_renaming (r : Renaming options) {source : String} {s : TokenStream}
    (hs : tokenize .withPrivate source = .ok s) :
    (s.rename r.word).parse .withPrivate options =
      s.renameOutcome r.word (s.parse .withPrivate options) := by
  have hsorted := (TokenStream.covers_of_tokenize hs).pairwise_lt
  have hrun := Alignment.statements_renamed r s
  rw [TokenStream.parse, TokenStream.parse]
  generalize s.statements .withPrivate options = reply at hrun
  generalize (s.rename r.word).statements .withPrivate options = reply' at hrun
  cases hrun with
  | @ok body body' state state' hbody hstate =>
    have hrenamed : body.map (Node.rename r.word) = body'.map id :=
      map_eq_of_forall₂ hbody fun _ _ _ h => h.eq_rename.symm
    have hreported := hstate.reported.imp fun _ _ => Diagnostic.AlikeSoft.eq
    rw [List.forall₂_eq_eq_eq] at hreported
    rw [List.map_id] at hrenamed
    simp only [TokenStream.renameOutcome, Parsed.rename, hrenamed, hreported]
  | error hfault _ =>
    cases hfault with
    | rejected hd =>
      rw [hd.eq_rename hsorted]
      rfl
    | unreadableNumber | noClass | exhausted => rfl

/-- Private words are checked. -/
def Options.checked : Options := ⟨.latest, .never, .script⟩

def Renaming.swapped : Renaming .checked where
  word := Equiv.swap "x" "y"
  injective := (Equiv.swap "x" "y").injective
  fixed := by decide
  reserved := by
    intro _ w hw
    apply Equiv.swap_apply_of_ne_of_ne
    · rintro rfl
      revert hw
      decide +kernel
    · rintro rfl
      revert hw
      decide +kernel

def pairText : String :=
  "class A \x7b #x; static #y; constructor() \x7b this.#x = A.#y.x \x7d \x7d"

theorem pairText_renamed : ∃ s p, tokenize .withPrivate pairText = .ok s ∧
    s.parse .withPrivate .checked = .ok p ∧
    s.rename Renaming.swapped.word ≠ s ∧
    (s.rename Renaming.swapped.word).parse .withPrivate .checked =
      .ok (p.rename Renaming.swapped.word) := by
  have hread : ((tokenize .withPrivate pairText).toOption.map fun s =>
      (decide (s.rename Renaming.swapped.word ≠ s),
        (s.parse .withPrivate .checked).toOption.isSome)) = some (true, true) := by
    decide +kernel
  cases hs : tokenize .withPrivate pairText with
  | error e => simp [hs, Except.toOption] at hread
  | ok s =>
    have hcommutes := parse_commutes_with_renaming Renaming.swapped hs
    cases hp : s.parse .withPrivate .checked with
    | error e => simp [hs, hp, Except.toOption] at hread
    | ok p =>
      rw [hp] at hcommutes
      exact ⟨s, p, rfl, hp, by simpa [hs, hp, Except.toOption] using hread, hcommutes⟩

end JsClass
