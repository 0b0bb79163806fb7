import Mathlib.Data.List.Forall2
import Mathlib.Data.List.Induction
import Mathlib.Data.List.Nodup
import JsClass.Proofs.Scope.Histories

/-!
The open uses of a scope against its history. A record of the calls so far keeps, for every body
that is open, all that was declared in it and every use that it has to answer for. A frame keeps
one position for each name, which is the least among the uses on record.
-/
namespace JsClass.Scope

/-- What the calls so far say of a class body that is open. -/
structure Body where
  /-- The declarations that were accepted, in their order. -/
  declared : List (String × ElementKind)
  /-- The uses that were recorded in the body, and those that bodies inside left open when they
  ended; without those that came before the last declaration of their name. -/
  uses : List (String × Position)
deriving DecidableEq

namespace Body

def empty : Body := ⟨[], []⟩

def names (body : Body) : List String := body.declared.map (·.1)

/-- A declaration is accepted if it goes together with all those of its name before it. -/
def declare (body : Body) (name : String) (kind : ElementKind) : Body :=
  if canShare (kindsOf name body.declared ++ [kind]) then
    ⟨body.declared ++ [(name, kind)], body.uses.filter (·.1 != name)⟩
  else body

def addUses (body : Body) (uses : List (String × Position)) : Body :=
  ⟨body.declared, body.uses ++ uses⟩

end Body

/-- What a call adds to the record, the innermost body first. A use is recorded if none of the
bodies has declared its name. -/
def note : List Body → Call → List Body
  | bodies, .enter => .empty :: bodies
  | body :: outer, .declare name kind _ => body.declare name kind :: outer
  | body :: outer, .use name pos =>
    if declaredIn ((body :: outer).map Body.names) name then body :: outer
    else body.addUses [(name, pos)] :: outer
  | inner :: body :: outer, .exit => body.addUses inner.uses :: outer
  | [_], .exit => []
  | [], .declare .. | [], .use .. | [], .exit => []

/-- The bodies that are open after some calls. -/
def openBodies (calls : List Call) : List Body := calls.foldl note []

/-- The scope after some calls, also where some of them are refused. -/
def reached (calls : List Call) : Scope := after .empty (calls.map Call.step)

/-- A use that no other use of its name comes before. -/
def IsLeastUse (uses : List (String × Position)) (name : String) (pos : Position) : Prop :=
  (name, pos) ∈ uses ∧ ∀ other, (name, other) ∈ uses → ¬ other.lt pos

variable {frame inner : Frame} {outer frames : List Frame} {body innerBody : Body}
variable {bodies : List Body} {name : String} {pos : Position} {s : Scope}

/-! Names that are free. -/

theorem Tidy.unbound {above : List Frame} (h : Tidy (above ++ frame :: outer)) :
    ∀ use ∈ frame.unresolved, ∀ f ∈ frame :: outer, f.kindOf? use.1 = none := by
  induction above with
  | nil => exact h.1
  | cons _ above ih => exact ih h.2

theorem Tidy.apply (h : Tidy s.frames) (call : Call) : Tidy (call.apply s).2.frames := by
  obtain ⟨frames⟩ := s
  cases call with
  | enter => exact ⟨by simp [Frame.empty], h⟩
  | declare name kind pos =>
    cases frames with
    | nil => exact h
    | cons frame outer =>
      rcases declare_cases frame outer name kind pos with ⟨k, hk, -⟩ | ⟨e, he, -⟩
      · rw [Call.apply, hk]
        exact h.bind name k
      · rw [Call.apply, he]
        exact h
  | use name pos =>
    cases frames with
    | nil => exact h
    | cons frame outer =>
      by_cases hbound : isBound ⟨frame :: outer⟩ name
      · simpa [Call.apply, Scope.use, hbound] using h
      · simpa [Call.apply, Scope.use, hbound] using h.record (by simpa [isBound] using hbound) pos
  | exit =>
    cases frames with
    | nil => exact h
    | cons frame outer =>
      cases outer with
      | nil =>
        simp only [Call.apply, Scope.exit]
        split <;> trivial
      | cons next outer => exact h.absorb

/-! Frames and the record. -/

/-- What a frame keeps of its body. -/
structure Keeps (frame : Frame) (body : Body) : Prop where
  holds : Holds frame body.declared
  compatible : compatible body.declared
  distinct : (frame.unresolved.map (·.1)).Nodup
  represents : Represents frame.unresolved body.uses

namespace Keeps

theorem empty : Keeps .empty .empty :=
  ⟨holds_empty, rfl, List.nodup_nil, .refl []⟩

/-- The frame takes and refuses the declarations that the record does. -/
theorem declare (h : Keeps frame body) (outer : List Frame) (name : String) (kind : ElementKind)
    (pos : Position) : ∃ frame',
      (Scope.declare ⟨frame :: outer⟩ name kind pos).2 = ⟨frame' :: outer⟩ ∧
      Keeps frame' (body.declare name kind) := by
  by_cases hshare : canShare (kindsOf name body.declared ++ [kind]) = true
  · obtain ⟨k, hk, hdeclare⟩ := declare_joins (h.holds name) hshare pos outer
    refine ⟨frame.bind name k, by rw [hdeclare], ?_⟩
    rw [Body.declare, if_pos hshare]
    exact ⟨h.holds.bind hk, (compatible_snoc h.compatible).2 hshare,
      Assoc.nodup_erase h.distinct name, h.represents.filter (· != name)⟩
  · have hrefused := declare_refuses (h.holds name) (compatible_iff.1 h.compatible name) hshare
      pos outer
    refine ⟨frame, by rw [hrefused], ?_⟩
    rwa [Body.declare, if_neg hshare]

theorem record (h : Keeps frame body) (name : String) (pos : Position) :
    Keeps (frame.record name pos) (body.addUses [(name, pos)]) where
  holds n := (frame.kindOf?_record name n pos).trans (h.holds n)
  compatible := h.compatible
  distinct := Frame.nodup_record h.distinct name pos
  represents := (frame.record_represents name pos).trans (h.represents.append (.refl _))

theorem absorb (h : Keeps frame body) (hinner : Keeps inner innerBody) :
    Keeps (frame.absorb inner) (body.addUses innerBody.uses) where
  holds n := (frame.kindOf?_absorb inner n).trans (h.holds n)
  compatible := h.compatible
  distinct := Frame.nodup_absorb h.distinct inner
  represents := (frame.absorb_represents inner).trans (h.represents.append hinner.represents)

theorem isSome_kindOf? (h : Keeps frame body) (name : String) :
    (frame.kindOf? name).isSome = body.names.contains name := by
  rw [h.holds name, Bool.eq_iff_iff, Option.isSome_iff_ne_none, Ne, joined_eq_none]
  simp [kindsOf, Body.names]

/-- The open uses are the least ones on record. -/
theorem mem_unresolved (h : Keeps frame body) (name : String) (pos : Position) :
    (name, pos) ∈ frame.unresolved ↔ IsLeastUse body.uses name pos := by
  constructor
  · intro hopen
    refine ⟨h.represents.1 hopen, fun other hother => ?_⟩
    obtain ⟨use, huse, hname, hlt⟩ := h.represents.2 _ hother
    have heq := List.inj_on_of_nodup_map h.distinct huse hopen hname
    rwa [heq] at hlt
  · rintro ⟨hmem, hleast⟩
    obtain ⟨⟨other, least⟩, huse, hname, hlt⟩ := h.represents.2 _ hmem
    obtain rfl : other = name := hname
    have hpos : pos = least := Position.eq_of_not_lt hlt (hleast least (h.represents.1 huse))
    rwa [hpos]

end Keeps

theorem isBound_eq_declaredIn (h : List.Forall₂ Keeps frames bodies) (name : String) :
    isBound ⟨frames⟩ name = declaredIn (bodies.map Body.names) name := by
  induction h with
  | nil => rfl
  | cons hkeeps _ ih =>
    rw [List.map_cons, declaredIn_cons, ← ih, ← hkeeps.isSome_kindOf?]
    rfl

theorem keeps_note (h : List.Forall₂ Keeps s.frames bodies) (call : Call) :
    List.Forall₂ Keeps (call.apply s).2.frames (note bodies call) := by
  obtain ⟨frames⟩ := s
  cases call with
  | enter => exact .cons .empty h
  | declare name kind pos =>
    cases h with
    | nil => exact .nil
    | cons hkeeps houter =>
      obtain ⟨frame', hdeclare, hkeeps'⟩ := hkeeps.declare _ name kind pos
      rw [Call.apply, hdeclare]
      exact .cons hkeeps' houter
  | use name pos =>
    have hbound := isBound_eq_declaredIn h name
    cases h with
    | nil => exact .nil
    | cons hkeeps houter =>
      simp only [Call.apply, Scope.use, hbound, note]
      split
      · exact .cons hkeeps houter
      · exact .cons (hkeeps.record name pos) houter
  | exit =>
    cases h with
    | nil => exact .nil
    | cons hinner houter =>
      cases houter with
      | nil =>
        simp only [Call.apply, Scope.exit]
        split <;> exact .nil
      | cons hkeeps houter => exact .cons (hkeeps.absorb hinner) houter

/-! Whole histories. -/

theorem reached_snoc (calls : List Call) (call : Call) :
    reached (calls ++ [call]) = (call.apply (reached calls)).2 := by
  rw [reached, List.map_append, after_append, List.map_singleton, after_cons, after_nil,
    call_run_scope, reached]

theorem openBodies_snoc (calls : List Call) (call : Call) :
    openBodies (calls ++ [call]) = note (openBodies calls) call := by
  simp [openBodies]

theorem tidy_reached (calls : List Call) : Tidy (reached calls).frames := by
  induction calls using List.reverseRecOn with
  | nil => trivial
  | append_singleton calls call ih =>
    rw [reached_snoc]
    exact ih.apply call

theorem keeps_reached (calls : List Call) :
    List.Forall₂ Keeps (reached calls).frames (openBodies calls) := by
  induction calls using List.reverseRecOn with
  | nil => exact .nil
  | append_singleton calls call ih =>
    rw [reached_snoc, openBodies_snoc]
    exact keeps_note ih call

/-! Calls that are refused. -/

theorem declare_error_unchanged {kind : ElementKind} {e : ScopeError} {t : Scope}
    (h : s.declare name kind pos = (.error e, t)) : t = s := by
  obtain ⟨frames⟩ := s
  cases frames with
  | nil => exact (congrArg Prod.snd h).symm
  | cons frame outer =>
    rcases declare_cases frame outer name kind pos with ⟨k, hk, -⟩ | ⟨e, he, -⟩
    · rw [hk] at h
      cases h
    · rw [he] at h
      exact (congrArg Prod.snd h).symm

theorem use_error_unchanged {e : ScopeError} {t : Scope}
    (h : s.use name pos = (.error e, t)) : t = s := by
  unfold Scope.use at h
  split at h
  · exact (congrArg Prod.snd h).symm
  · split at h <;> cases h

/-- Whatever is called, also where a call is refused: a use that is open in a class body is bound
neither there nor further out; the open uses of a body are just the least uses of every name that
were recorded there or were left open inside, since the name was last declared; and a declaration or
a use that is refused leaves the scope as it is. -/
theorem open_uses_unbound_and_least (calls : List Call) :
    (∀ above frame outer, (reached calls).frames = above ++ frame :: outer →
      ∀ use ∈ frame.unresolved, ∀ f ∈ frame :: outer, f.kindOf? use.1 = none) ∧
    List.Forall₂ (fun frame body => ∀ name pos,
      (name, pos) ∈ frame.unresolved ↔ IsLeastUse body.uses name pos)
      (reached calls).frames (openBodies calls) ∧
    (∀ name kind pos e t, (reached calls).declare name kind pos = (.error e, t) →
      t = reached calls) ∧
    ∀ name pos e t, (reached calls).use name pos = (.error e, t) → t = reached calls := by
  refine ⟨fun above frame outer hframes => ?_, ?_, fun _ _ _ _ _ => declare_error_unchanged,
    fun _ _ _ _ => use_error_unchanged⟩
  · have htidy := tidy_reached calls
    rw [hframes] at htidy
    exact htidy.unbound
  · exact (keeps_reached calls).imp fun _ _ hkeeps => hkeeps.mem_unresolved

/-- An inner body declares the name `a`, which is open further out, and does so twice; it leaves
`b` open, which the outer body uses too. The first call is refused, as no body is open. -/
def shadowedNames : List Call :=
  [.use "a" ⟨1, 1⟩, .enter, .use "a" ⟨2, 1⟩, .use "b" ⟨2, 5⟩, .enter, .declare "a" .field ⟨3, 1⟩,
   .declare "a" .field ⟨3, 5⟩, .use "a" ⟨1, 4⟩, .use "b" ⟨4, 1⟩, .use "b" ⟨1, 9⟩, .exit,
   .use "b" ⟨5, 1⟩]

theorem open_shadowedNames : ∃ frame, (reached shadowedNames).frames = [frame] ∧
    (frame.kindOf? "a" = none ∧ ("a", ⟨2, 1⟩) ∈ frame.unresolved) ∧
    ("b", ⟨1, 9⟩) ∈ frame.unresolved ∧ ("b", ⟨2, 5⟩) ∉ frame.unresolved := by
  obtain ⟨hunbound, hleast, -, -⟩ := open_uses_unbound_and_least shadowedNames
  have hbodies : openBodies shadowedNames = [⟨[], [("a", ⟨2, 1⟩), ("b", ⟨2, 5⟩), ("b", ⟨4, 1⟩),
    ("b", ⟨1, 9⟩), ("b", ⟨5, 1⟩)]⟩] := by decide
  rw [hbodies] at hleast
  generalize hframes : (reached shadowedNames).frames = frames at hleast hunbound
  cases hleast with
  | cons hframe hnil =>
    cases hnil
    have ha := (hframe "a" ⟨2, 1⟩).2 (by simp [IsLeastUse, Position.lt])
    refine ⟨_, rfl, ⟨hunbound [] _ [] rfl _ ha _ (by simp), ha⟩, (hframe _ _).2 ?_, ?_⟩
    · simp [IsLeastUse, Position.lt]
    · rw [hframe]
      simp [IsLeastUse, Position.lt]

end JsClass.Scope
