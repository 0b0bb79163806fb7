import JsClass.Proofs.Procedure.Basic
import JsClass.Proofs.Scope.Frames

/-!
Class bodies of a procedure. Whatever a procedure does and however it ends, the bodies around the
one that it stands in are as before. A body that was read leaves its open uses to the next one, and
a body that was not leaves nothing behind.
-/
namespace JsClass

variable {α : Type}

/-- The same names are declared, and the open uses are still open, each with its position or with
one before it. -/
structure Frame.GrowsTo (f f' : Frame) : Prop where
  bound : f'.bound = f.bound
  unresolved : ∀ name pos, f.unresolved.lookup name = some pos →
    ∃ pos', f'.unresolved.lookup name = some pos' ∧ ¬ pos.lt pos'

namespace Frame

variable {f f' f'' : Frame}

theorem GrowsTo.refl (f : Frame) : f.GrowsTo f :=
  ⟨rfl, fun _ pos h => ⟨pos, h, Position.not_lt_self pos⟩⟩

theorem GrowsTo.trans (h : f.GrowsTo f') (h' : f'.GrowsTo f'') : f.GrowsTo f'' := by
  refine ⟨h'.bound.trans h.bound, fun name pos hpos => ?_⟩
  obtain ⟨pos', hpos', hle⟩ := h.unresolved name pos hpos
  obtain ⟨pos'', hpos'', hle'⟩ := h'.unresolved name pos' hpos'
  exact ⟨pos'', hpos'', Position.not_lt_trans hle' hle⟩

/-- A new position only takes the place of one behind it. -/
theorem growsTo_put {name : String} {pos : Position}
    (h : ∀ old, f.unresolved.lookup name = some old → pos.lt old) :
    f.GrowsTo { f with unresolved := f.unresolved.put name pos } := by
  refine ⟨rfl, fun other old hold => ?_⟩
  rw [Assoc.lookup_put]
  split
  · next heq =>
    subst heq
    exact ⟨pos, rfl, Position.not_lt_of_lt (h old hold)⟩
  · exact ⟨old, hold, Position.not_lt_self old⟩

theorem record_growsTo (f : Frame) (name : String) (pos : Position) :
    f.GrowsTo (f.record name pos) := by
  unfold record
  split
  · next old hold =>
    split
    · next hlt =>
      refine growsTo_put fun old' hold' => ?_
      obtain rfl : old = old' := Option.some.inj (hold.symm.trans hold')
      exact hlt
    · exact .refl f
  · next hnone => exact growsTo_put fun old hold => by simp [hnone] at hold

theorem absorb_growsTo (f inner : Frame) : f.GrowsTo (f.absorb inner) := by
  obtain ⟨bound, us⟩ := inner
  induction us generalizing f with
  | nil => exact .refl f
  | cons u us ih =>
    rw [absorb_cons]
    exact (record_growsTo f u.1 u.2).trans (ih (f.record u.1 u.2))

end Frame

namespace Scope

/-- The same bodies are open, and those around the innermost one are unchanged. -/
structure SameBelow (s t : Scope) : Prop where
  depth : t.depth = s.depth
  below : t.frames.tail = s.frames.tail

/-- The same bodies are open, and only in the innermost one uses may have been added. -/
inductive Grows : Scope → Scope → Prop
  | outside : Grows ⟨[]⟩ ⟨[]⟩
  | inside {f f' : Frame} {outer : List Frame} (h : f.GrowsTo f') :
    Grows ⟨f :: outer⟩ ⟨f' :: outer⟩

variable {s t u : Scope}

theorem SameBelow.refl (s : Scope) : s.SameBelow s := ⟨rfl, rfl⟩

theorem SameBelow.trans (h : s.SameBelow t) (h' : t.SameBelow u) : s.SameBelow u :=
  ⟨h'.depth.trans h.depth, h'.below.trans h.below⟩

theorem Grows.sameBelow (h : s.Grows t) : s.SameBelow t := by
  cases h with
  | outside => exact .refl _
  | inside h => exact ⟨rfl, rfl⟩

theorem eq_empty_of_sameBelow (h : empty.SameBelow s) : s = empty := by
  obtain ⟨frames⟩ := s
  have hlength : frames.length = 0 := h.depth
  rw [List.length_eq_zero_iff.1 hlength]
  rfl

/-- What stands in place of the body that was entered. -/
theorem frames_of_enter_sameBelow (h : s.enter.SameBelow t) : ∃ f, t.frames = f :: s.frames := by
  obtain ⟨frames⟩ := t
  cases frames with
  | nil => simpa [depth, enter] using h.depth
  | cons f outer =>
    have hbelow : outer = s.frames := h.below
    exact ⟨f, by rw [hbelow]⟩

theorem use_sameBelow (s : Scope) (name : String) (pos : Position) :
    s.SameBelow (s.use name pos).2 := by
  obtain ⟨frames⟩ := s
  unfold use
  split
  · exact .refl _
  · next hframes =>
    cases hframes
    split
    · exact .refl _
    · exact ⟨rfl, rfl⟩

theorem declare_sameBelow (s : Scope) (name : String) (kind : ElementKind) (pos : Position) :
    s.SameBelow (s.declare name kind pos).2 := by
  obtain ⟨frames⟩ := s
  unfold declare
  split
  · exact .refl _
  · next hframes =>
    cases hframes
    split
    · exact ⟨rfl, rfl⟩
    · split
      · exact .refl _
      · exact ⟨rfl, rfl⟩

end Scope

/-- The private names when a run ends. -/
def Reply.scope : Reply α → Scope
  | .ok _ t | .error _ t => t.scope

/-- A class body is left: a body that was read may have added uses to the next one, and behind a
fault all is as before. -/
def Reply.LeavesClass (before : Scope) : Reply α → Prop
  | .ok _ t => before.Grows t.scope
  | .error _ t => t.scope = before

theorem Reply.LeavesClass.sameBelow {before : Scope} {r : Reply α} (h : r.LeavesClass before) :
    before.SameBelow r.scope := by
  cases r with
  | ok a t => exact Scope.Grows.sameBelow h
  | error e t =>
    have hscope : t.scope = before := h
    rw [Reply.scope, hscope]
    exact .refl before

/-- The scope behind a call on the private names is the one that the call leaves. -/
theorem Parser.onScope_scope (op : Scope → Scope.Attempt) (c : Context) (s : State) :
    (onScope op c s).scope = (op s.scope).2 := by
  unfold onScope
  split <;> simp_all [Reply.scope]

/-- Leaving a body adds its open uses to the next one. At the outermost body they are refused, when
it has been left already. -/
theorem Parser.exit_leaves {s t : State} {f : Frame}
    (hframes : t.scope.frames = f :: s.scope.frames) (c : Context) :
    (onScope Scope.exit c t).LeavesClass s.scope := by
  obtain ⟨pending, reported, ⟨outer⟩⟩ := s
  obtain ⟨pending', reported', ⟨frames⟩⟩ := t
  obtain rfl : frames = f :: outer := hframes
  cases outer with
  | nil =>
    cases hopen : f.firstOpen? with
    | none =>
      simp only [onScope, Scope.exit, hopen]
      exact Scope.Grows.outside
    | some use => simp [onScope, Scope.exit, hopen, Reply.LeavesClass, Scope.empty]
  | cons next outer => exact Scope.Grows.inside (next.absorb_growsTo f)

/-- A rule that keeps the bodies below, run in a body of its own, leaves that body. -/
theorem Parser.inClassBody_leaves {p : Parser α}
    (hp : ∀ c (s : State), s.scope.SameBelow (p c s).scope) (c : Context) (s : State) :
    (inClassBody p c s).LeavesClass s.scope := by
  have hbody := hp c { s with scope := s.scope.enter }
  unfold inClassBody
  generalize p c { s with scope := s.scope.enter } = r at hbody
  obtain ⟨f, hframes⟩ := Scope.frames_of_enter_sameBelow hbody
  cases r with
  | ok a t =>
    have hexit := exit_leaves hframes c
    dsimp only
    rw [bind_apply]
    generalize onScope Scope.exit c t = r at hexit
    cases r with
    | ok _ u => exact hexit
    | error e u => exact hexit
  | error e t =>
    have habandon : t.scope.abandon.2 = s.scope := by
      have hframes : t.scope.frames = f :: s.scope.frames := hframes
      simp [Scope.abandon, hframes]
    exact habandon

namespace Procedure

/-- However a procedure ends, the bodies around are as before. -/
theorem denote_sameBelow (p : Procedure α) (c : Context) (s : State) :
    s.scope.SameBelow (p.denote c s).scope := by
  induction p generalizing c s with
  | bind p f ihp ihf =>
    rw [denote, Parser.bind_apply]
    have hp := ihp c s
    cases hrun : p.denote c s with
    | ok a t =>
      rw [hrun] at hp
      exact hp.trans (ihf a c t)
    | error e t =>
      rw [hrun] at hp
      exact hp
  | under values p ih => exact ih (c.assign values) s
  | advance =>
    rw [denote, Parser.advance]
    split <;> exact .refl _
  | use name pos =>
    rw [denote, Parser.onScope_scope]
    exact s.scope.use_sameBelow name pos
  | declare name kind pos =>
    rw [denote, Parser.onScope_scope]
    exact s.scope.declare_sameBelow name kind pos
  | classBody p ih => exact (Parser.inClassBody_leaves ih c s).sameBelow
  | pure | fail | report | context | peek | peekAt | pending | restore => exact .refl _

end Procedure

end JsClass
