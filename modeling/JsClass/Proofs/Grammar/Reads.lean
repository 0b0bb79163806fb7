import JsClass.Proofs.Grammar.Formed
import JsClass.Proofs.Grammar.Success

/-!
What a successful run of a rule reads. It leaves a suffix of the tokens, and its nodes are formed,
have made their calls on the scope, and hold the literals and private names that were taken, all in
the order of reading.
-/
namespace JsClass

open Scope

/-- Whether the tree keeps what the token says, words apart. -/
def Kind.isLeaf : Kind → Bool
  | .number _ | .string _ | .privateName _ => true
  | _ => false

def Token.leaf? (t : Token) : Option (Kind × Position) :=
  if t.kind.isLeaf then some (t.kind, t.pos) else none

namespace Node

/-- The token that a literal or a private name was read from. -/
def leaf? (n : Node) : Option (Kind × Position) :=
  match n.shape with
  | .number _ raw => some (.number raw, n.pos)
  | .string value => some (.string value, n.pos)
  | .privateName name => some (.privateName name, n.pos)
  | _ => none

/-- The literals and private names of a tree. -/
def leaves : Node → List (Kind × Position) :=
  recurse fun n s => n.leaf?.toList ++ s.children.flatten

theorem leaves_eq (n : Node) : n.leaves = n.leaf?.toList ++ n.children.flatMap leaves := by
  rw [leaves, recurse_eq, Shape.children_map, ← leaves, children, List.flatMap_def]

/-- A node that makes no call and is no leaf, apart from what is below it. -/
def isSilent (n : Node) : Bool := n.accessed?.isNone && !n.isClass && n.leaf?.isNone

end Node

namespace Part

def calls (p : Part) : List Call :=
  match p.role with
  | .member => p.node.memberCalls
  | .label | .ordinary => p.node.calls

@[simp] theorem calls_ordinary (c : Context) (n : Node) : (ordinary c n).calls = n.calls := rfl

@[simp] theorem calls_member (c : Context) (n : Node) : (member c n).calls = n.memberCalls := rfl

@[simp] theorem calls_key (computed : Bool) (c : Context) (n : Node) :
    (key computed c n).calls = n.calls := by
  cases computed <;> rfl

def leaves (p : Part) : List (Kind × Position) := p.node.leaves

theorem leaves_parts (c : Context) (n : Node) :
    (n.shape.parts c).flatMap leaves = n.children.flatMap Node.leaves := by
  rw [Node.children, ← map_node_parts c, List.flatMap_map]
  rfl

/-- Only classes have members. -/
theorem calls_parts {n : Node} (c : Context) (h : n.isClass = false) :
    (n.shape.parts c).flatMap calls = n.children.flatMap Node.calls := by
  have hrole : ∀ q ∈ n.shape.parts c, q.calls = q.node.calls := by
    cases hs : n.shape
    case class_ => simp [Node.isClass, hs] at h
    all_goals simp [Shape.parts, or_imp, forall_and]
  rw [Node.children, ← map_node_parts c, List.flatMap_map, List.flatMap_def, List.flatMap_def,
    List.map_congr_left hrole]

end Part

/-- The way from one state to another reads the parts, in a dialect and before an end of input. -/
structure Reads (d : Dialect) (e : Token) (s : State) (ps : List Part) (t : State) : Prop where
  formed : ∀ p ∈ ps, p.Formed
  scope : d = .withPrivate → run s.scope (ps.flatMap Part.calls) = (.ok (), t.scope)
  tokens : e.kind = .eof → ∃ taken, s.pending = taken ++ t.pending ∧
    taken.filterMap Token.leaf? = ps.flatMap Part.leaves

namespace Reads

variable {d : Dialect} {e : Token} {c : Context} {s t u : State} {ps qs : List Part} {n : Node}

theorem trans (hp : Reads d e s ps u) (hq : Reads d e u qs t) : Reads d e s (ps ++ qs) t := by
  refine ⟨?_, ?_, ?_⟩
  · intro p h
    rcases List.mem_append.1 h with h | h
    · exact hp.formed p h
    · exact hq.formed p h
  · intro hd
    rw [List.flatMap_append, run_append (hp.scope hd), hq.scope hd]
  · intro he
    obtain ⟨xs, hx, hxl⟩ := hp.tokens he
    obtain ⟨ys, hy, hyl⟩ := hq.tokens he
    exact ⟨xs ++ ys, by simp [hx, hy], by simp [hxl, hyl]⟩

/-- Nothing is read as long as tokens and private names stay. -/
theorem refl (hp : s.pending = t.pending) (hs : s.scope = t.scope) : Reads d e s [] t :=
  ⟨by simp, fun _ => by simp [run, hs], fun _ => ⟨[], by simp [hp], rfl⟩⟩

theorem rfl' : Reads d e s [] s := refl rfl rfl

/-- Going back behind parts without leaves is as if no token had been taken for them. -/
theorem rewind (h : Reads d e s ps t) (hl : ps.flatMap Part.leaves = []) :
    Reads d e s ps { t with pending := s.pending } :=
  ⟨h.formed, h.scope, fun _ => ⟨[], rfl, hl.symm⟩⟩

/-- A token that is no leaf may be skipped. -/
theorem skip (h : (c.next s).kind.isLeaf = false) : Reads d e s [] s.skip := by
  refine ⟨by simp, fun _ => by simp [run, State.skip], fun _ => ⟨s.pending.take 1, ?_, ?_⟩⟩
  · rw [State.skip]
    cases s.pending <;> rfl
  · cases hp : s.pending with
    | nil => rfl
    | cons x rest =>
      have hx : x.kind.isLeaf = false := by simpa [Context.next, hp] using h
      simp [Token.leaf?, hx]

theorem single {p : Part} (formed : p.Formed)
    (scope : d = .withPrivate → run s.scope p.calls = (.ok (), t.scope))
    (tokens : e.kind = .eof → ∃ taken, s.pending = taken ++ t.pending ∧
      taken.filterMap Token.leaf? = p.leaves) : Reads d e s [p] t :=
  ⟨by simpa using formed, by simpa using scope, by simpa using tokens⟩

/-- A node that makes no calls of its own reads what its parts read. -/
theorem ordinary (h : Reads d e s (n.shape.parts c) t) (silent : n.isSilent = true)
    (allowed : n.shape.IsOrdinary c) : Reads d e s [.ordinary c n] t := by
  simp only [Node.isSilent, Bool.and_eq_true, Option.isNone_iff_eq_none,
    Bool.not_eq_true'] at silent
  obtain ⟨⟨haccess, hclass⟩, hleaf⟩ := silent
  refine single ⟨allowed, h.formed⟩ ?_ ?_
  · intro hd
    rw [← h.scope hd, Part.calls_parts c hclass]
    simp [Node.calls_of_not_class hclass, haccess]
  · intro he
    obtain ⟨taken, htaken, hleaves⟩ := h.tokens he
    refine ⟨taken, htaken, ?_⟩
    rw [hleaves, Part.leaves_parts]
    simp [Part.leaves, Node.leaves_eq n, hleaf]

/-- A node without children that stands for the next token. -/
theorem leaf {p : Part} (he : e = c.finish) (allowed : p.Allowed) (children : p.node.children = [])
    (hl : p.node.leaf? = some ((c.next s).kind, (c.next s).pos))
    (hk : (c.next s).kind.isLeaf = true) : Reads d e s [p] s.skip := by
  have hno : p.node.shape.parts p.context = [] := by
    rw [← List.map_eq_nil_iff, Part.map_node_parts]
    exact children
  have hcalls : p.calls = [] := by
    obtain ⟨role, context, ⟨shape, pos⟩⟩ := p
    cases shape <;> simp [Node.leaf?, Node.shape] at hl
    all_goals cases role <;> rfl
  refine single ⟨allowed, by simp [hno]⟩ (fun _ => by simp [hcalls, run, State.skip]) ?_
  intro hend
  cases hp : s.pending with
  | nil =>
    have : c.next s = e := by simp [Context.next, hp, he]
    rw [this, hend] at hk
    cases hk
  | cons x rest =>
    have hx : c.next s = x := by simp [Context.next, hp]
    refine ⟨[x], by simp [State.skip, hp], ?_⟩
    rw [hx] at hl hk
    simp [Token.leaf?, hk, Part.leaves, Node.leaves_eq, children, hl]

/-- A word as the spelled-out name of something. -/
theorem label (h : Reads d e s [] t) (i : Ident) : Reads d e s [.label c i.node] t := by
  refine single ⟨trivial, ?_⟩ h.scope h.tokens
  simp [Ident.node, Node.shape, Shape.parts, Shape.children, Shape.fields, Field.children,
    Field.word]

end Reads

namespace Parser

variable {d : Dialect} {e : Token} {c : Context} {s t : State}

theorem acceptKind_reads {k : Kind} {r : Bool} (hk : k.isLeaf = false)
    (h : acceptKind k c s = .ok r t) : Reads d e s [] t := by
  rcases acceptKind_eq_ok.1 h with ⟨hn, -, rfl⟩ | ⟨-, -, rfl⟩
  · exact .skip (by rw [hn, hk])
  · exact .rfl'

theorem accept_reads {p : Punct} {r : Bool} (h : accept p c s = .ok r t) : Reads d e s [] t :=
  acceptKind_reads rfl h

theorem acceptKeyword_reads {k : Keyword} {r : Bool} (h : acceptKeyword k c s = .ok r t) :
    Reads d e s [] t :=
  acceptKind_reads rfl h

theorem expect_reads {p : Punct} {x : Token} (h : expect p c s = .ok x t) : Reads d e s [] t := by
  obtain ⟨hn, -, rfl⟩ := expect_eq_ok.1 h
  exact .skip (by rw [hn]; rfl)

theorem expectKeyword_reads {k : Keyword} {x : Token} (h : expectKeyword k c s = .ok x t) :
    Reads d e s [] t := by
  obtain ⟨hn, -, rfl⟩ := expectKeyword_eq_ok.1 h
  exact .skip (by rw [hn]; rfl)

theorem advance_reads {x : Token} (hk : (c.next s).kind.isLeaf = false)
    (h : advance c s = .ok x t) : Reads d e s [] t := by
  obtain ⟨-, rfl⟩ := advance_eq_ok.1 h
  exact .skip hk

theorem semicolon_reads {u : Unit} (h : semicolon c s = .ok u t) : Reads d e s [] t := by
  simp only [semicolon, bind_eq_ok, ite_eq_ok, pure_eq_ok, canInsertSemicolon_eq_ok,
    unexpectedNext_eq_ok, and_false, or_false] at h
  obtain ⟨r, v, hv, ⟨-, -, rfl⟩ | ⟨-, _, _, ⟨-, rfl⟩, -, -, rfl⟩⟩ := h
  · exact accept_reads hv
  · exact accept_reads hv

/-! Words. -/

theorem checkUnreserved_reads {word : String} {pos : Position} {u : Unit}
    (h : checkUnreserved word pos c s = .ok u t) : Reads d e s [] t := by
  simp only [checkUnreserved, bind_eq_ok, context_eq_ok, ite_eq_ok, reject_eq_ok, report_eq_ok,
    pure_eq_ok, and_false, false_or] at h
  obtain ⟨_, _, ⟨rfl, rfl⟩, -, -, -, ⟨-, rfl⟩ | ⟨-, -, rfl⟩⟩ := h
  · exact .refl rfl rfl
  · exact .rfl'

theorem anyWord_reads {i : Ident} (h : anyWord c s = .ok i t) : Reads d e s [] t := by
  obtain ⟨word, hw, -, rfl⟩ := anyWord_eq_ok.1 h
  have hl : (c.next s).kind.isLeaf = false := by
    cases hk : (c.next s).kind <;> simp_all [Kind.word?, Kind.isLeaf]
  exact .skip hl

theorem checkIfNever_reads {i : Ident} {u : Unit} (h : checkIfNever i c s = .ok u t) :
    Reads d e s [] t := by
  simp only [checkIfNever, bind_eq_ok, context_eq_ok, ite_eq_ok, pure_eq_ok] at h
  obtain ⟨_, _, ⟨rfl, rfl⟩, ⟨-, h⟩ | ⟨-, -, rfl⟩⟩ := h
  · exact checkUnreserved_reads h
  · exact .rfl'

theorem ident_reads {i : Ident} (h : ident c s = .ok i t) : Reads d e s [.ordinary c i.node] t := by
  simp only [ident, bind_eq_ok, context_eq_ok, ite_eq_ok, reject_eq_ok, pure_eq_ok, and_false,
    false_or] at h
  obtain ⟨i, u, hw, _, v, hu, _, _, ⟨rfl, rfl⟩, hn, rfl, rfl⟩ := h
  refine ((anyWord_reads hw).trans (checkUnreserved_reads hu)).ordinary rfl ?_
  intro hf hi
  simp [hf, hi] at hn

theorem propertyWord_reads {i : Ident} (h : propertyWord c s = .ok i t) :
    Reads d e s [.label c i.node] t := by
  simp only [propertyWord, bind_eq_ok, pure_eq_ok] at h
  obtain ⟨i, u, hw, _, v, hu, rfl, rfl⟩ := h
  exact ((anyWord_reads hw).trans (checkIfNever_reads hu)).label i

/-- A private name is one token, and its word is checked behind it. -/
theorem privateName_next {i : Ident} (h : privateName c s = .ok i t) :
    (c.next s).kind = .privateName i.name ∧ (c.next s).pos = i.pos ∧ i.name ≠ "" ∧
      ∃ u, checkIfNever i c s.skip = .ok u t := by
  simp only [privateName, bind_eq_ok, peek_eq_ok] at h
  obtain ⟨_, _, ⟨rfl, rfl⟩, h⟩ := h
  cases hk : (c.next s).kind <;> simp only [hk, unexpected_eq_ok] at h
  case privateName word =>
    simp only [bind_eq_ok, advance_eq_ok, ite_eq_ok, reject_eq_ok, pure_eq_ok, and_false,
      false_or] at h
    obtain ⟨_, _, ⟨rfl, rfl⟩, hword, u, v, hcheck, rfl, rfl⟩ := h
    exact ⟨rfl, rfl, by simpa using hword, u, hcheck⟩

/-- A private name leaves its word and its position in the tree. -/
theorem privateName_reads {i : Ident} (hd : c.dialect = .withPrivate)
    (he : e = c.finish) (h : privateName c s = .ok i t) :
    Reads d e s [.label c ⟨.privateName i.name, i.pos⟩] t := by
  obtain ⟨hk, hpos, hword, u, hcheck⟩ := privateName_next h
  refine (Reads.leaf he ?_ rfl ?_ ?_).trans (checkIfNever_reads hcheck)
  · exact ⟨hd, hword⟩
  · rw [hk, hpos]
    rfl
  · rw [hk]
    rfl

end Parser

end JsClass
