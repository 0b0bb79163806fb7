import JsClass.Proofs.Likeness.Values
import JsClass.Proofs.Scope.Frames

/-!
Private names of two runs side by side. Frames that hold matched words at matched positions, in the
same order, answer every question alike and stay so.
-/
namespace JsClass

variable {m : Matching} {β γ : Type} {R : β → γ → Prop} {w w' : String}

namespace Assoc

/-- Tables with matched words and related values, in the same order. -/
def Alike (m : Matching) (R : β → γ → Prop) : Assoc β → Assoc γ → Prop :=
  List.Forall₂ fun x y => m.word x.1 y.1 ∧ R x.2 y.2

variable {table : Assoc β} {table' : Assoc γ}

theorem Alike.lookup (h : Alike m R table table') (hw : m.word w w') :
    Option.Rel R (table.lookup w) (table'.lookup w') := by
  induction h with
  | nil => exact .none
  | @cons x y xs ys hxy _ ih =>
    obtain ⟨k, v⟩ := x
    obtain ⟨k', v'⟩ := y
    rw [lookup_cons, lookup_cons]
    by_cases hk : w = k
    · rw [if_pos hk, if_pos ((m.word_eq hw hxy.1).1 hk)]
      exact .some hxy.2
    · rw [if_neg hk, if_neg fun hk' => hk ((m.word_eq hw hxy.1).2 hk')]
      exact ih

theorem Alike.put (h : Alike m R table table') (hw : m.word w w') {v : β} {v' : γ} (hv : R v v') :
    Alike m R (table.put w v) (table'.put w' v') := by
  induction h with
  | nil => exact .cons ⟨hw, hv⟩ .nil
  | @cons x y xs ys hxy hrest ih =>
    obtain ⟨k, u⟩ := x
    obtain ⟨k', u'⟩ := y
    unfold Assoc.put
    by_cases hk : k = w
    · rw [if_pos hk, if_pos ((m.word_eq hxy.1 hw).1 hk)]
      exact .cons ⟨hxy.1, hv⟩ hrest
    · rw [if_neg hk, if_neg fun hk' => hk ((m.word_eq hxy.1 hw).2 hk')]
      exact .cons hxy ih

theorem Alike.erase (h : Alike m R table table') (hw : m.word w w') :
    Alike m R (table.erase w) (table'.erase w') := by
  induction h with
  | nil => exact .nil
  | @cons x y xs ys hxy hrest ih =>
    unfold Assoc.erase at *
    by_cases hk : x.1 = w
    · rw [List.filter_cons_of_neg (by simpa using hk),
        List.filter_cons_of_neg (by simpa using (m.word_eq hxy.1 hw).1 hk)]
      exact ih
    · rw [List.filter_cons_of_pos (by simpa using hk),
        List.filter_cons_of_pos (by simpa using fun hk' => hk ((m.word_eq hxy.1 hw).2 hk'))]
      exact .cons hxy ih

end Assoc

/-! Frames. -/

structure Frame.Alike (m : Matching) (f f' : Frame) : Prop where
  bound : Assoc.Alike m Eq f.bound f'.bound
  unresolved : Assoc.Alike m m.pos f.unresolved f'.unresolved

namespace Frame.Alike

variable {f f' : Frame} {pos pos' : Position}

theorem empty : Frame.empty.Alike m Frame.empty := ⟨.nil, .nil⟩

theorem kindOf? (h : f.Alike m f') (hw : m.word w w') : f.kindOf? w = f'.kindOf? w' := by
  have hkind := h.bound.lookup hw
  unfold Frame.kindOf?
  generalize f.bound.lookup w = kind at hkind
  generalize f'.bound.lookup w' = kind' at hkind
  cases hkind with
  | none => rfl
  | some hkind => rw [hkind]

theorem bind (h : f.Alike m f') (hw : m.word w w') (kind : ElementKind) :
    (f.bind w kind).Alike m (f'.bind w' kind) :=
  ⟨h.bound.put hw rfl, h.unresolved.erase hw⟩

theorem record (h : f.Alike m f') (hw : m.word w w') (hp : m.pos pos pos') :
    (f.record w pos).Alike m (f'.record w' pos') := by
  have hput := h.unresolved.put hw hp
  have hold := h.unresolved.lookup hw
  unfold Frame.record
  generalize f.unresolved.lookup w = last at hold
  generalize f'.unresolved.lookup w' = last' at hold
  cases hold with
  | none => exact ⟨h.bound, hput⟩
  | @some old old' hold =>
    simp only [m.pos_lt hp hold]
    split
    · exact ⟨h.bound, hput⟩
    · exact h

theorem absorb {inner inner' : Frame} (h : f.Alike m f') (hinner : inner.Alike m inner') :
    (f.absorb inner).Alike m (f'.absorb inner') := by
  obtain ⟨bound, uses⟩ := inner
  obtain ⟨bound', uses'⟩ := inner'
  have huses : Assoc.Alike m m.pos uses uses' := hinner.unresolved
  clear hinner
  induction huses generalizing f f' with
  | nil => exact h
  | cons huse _ ih => exact ih (h.record huse.1 huse.2)

/-- Uses with matched words and positions. -/
abbrev Use (m : Matching) (x y : String × Position) : Prop := m.word x.1 y.1 ∧ m.pos x.2 y.2

theorem least {uses uses' : List (String × Position)} (h : List.Forall₂ (Use m) uses uses')
    {best best' : Option (String × Position)} (hbest : Option.Rel (Use m) best best') :
    Option.Rel (Use m) (uses.foldl Frame.firstOpen?.step best)
      (uses'.foldl Frame.firstOpen?.step best') := by
  induction h generalizing best best' with
  | nil => exact hbest
  | cons huse _ ih =>
    refine ih ?_
    cases hbest with
    | none => exact .some huse
    | some hleast =>
      unfold Frame.firstOpen?.step
      simp only [m.pos_lt huse.2 hleast.2]
      split
      · exact .some huse
      · exact .some hleast

theorem firstOpen? (h : f.Alike m f') : Option.Rel (Use m) f.firstOpen? f'.firstOpen? :=
  least h.unresolved .none

end Frame.Alike

/-! Scopes. -/

/-- Scopes with alike frames. -/
def Scope.Alike (m : Matching) (s s' : Scope) : Prop :=
  List.Forall₂ (Frame.Alike m) s.frames s'.frames

/-- Operations that are refused alike or leave alike scopes behind. -/
inductive Scope.Attempt.Alike (m : Matching) : Scope.Attempt → Scope.Attempt → Prop
  | ok {s s'} (h : s.Alike m s') : Alike m (.ok (), s) (.ok (), s')
  | diagnostic {d d' s s'} (hd : Diagnostic.AlikeFatal m d d') (h : s.Alike m s') :
    Alike m (.error (.diagnostic d), s) (.error (.diagnostic d'), s')
  | noClass {s s'} (h : s.Alike m s') : Alike m (.error .noClass, s) (.error .noClass, s')

namespace Scope.Alike

variable {s s' : Scope} {pos pos' : Position}

theorem enter (h : s.Alike m s') : s.enter.Alike m s'.enter := .cons .empty h

theorem isBound (h : s.Alike m s') (hw : m.word w w') : s.isBound w = s'.isBound w' := by
  obtain ⟨frames⟩ := s
  obtain ⟨frames'⟩ := s'
  have hframes : List.Forall₂ (Frame.Alike m) frames frames' := h
  clear h
  unfold Scope.isBound
  induction hframes with
  | nil => rfl
  | cons hframe _ ih => rw [List.any_cons, List.any_cons, hframe.kindOf? hw, ih]

theorem use (h : s.Alike m s') (hw : m.word w w') (hp : m.pos pos pos') :
    Attempt.Alike m (s.use w pos) (s'.use w' pos') := by
  have hbound := h.isBound hw
  obtain ⟨frames⟩ := s
  obtain ⟨frames'⟩ := s'
  have hframes : List.Forall₂ (Frame.Alike m) frames frames' := h
  unfold Scope.use
  cases hframes with
  | nil => exact .diagnostic (.undeclaredPrivate hw hp) h
  | cons hframe houter =>
    simp only [hbound]
    split
    · exact .ok h
    · exact .ok (.cons (hframe.record hw hp) houter)

theorem declare (h : s.Alike m s') (hw : m.word w w') (kind : ElementKind) (hp : m.pos pos pos') :
    Attempt.Alike m (s.declare w kind pos) (s'.declare w' kind pos') := by
  obtain ⟨frames⟩ := s
  obtain ⟨frames'⟩ := s'
  have hframes : List.Forall₂ (Frame.Alike m) frames frames' := h
  unfold Scope.declare
  cases hframes with
  | nil => exact .noClass h
  | cons hframe houter =>
    simp only [hframe.kindOf? hw]
    split
    · exact .ok (.cons (hframe.bind hw kind) houter)
    · split
      · exact .diagnostic (.duplicatePrivate hw hp) h
      · exact .ok (.cons (hframe.bind hw _) houter)

theorem exit (h : s.Alike m s') : Attempt.Alike m s.exit s'.exit := by
  obtain ⟨frames⟩ := s
  obtain ⟨frames'⟩ := s'
  have hframes : List.Forall₂ (Frame.Alike m) frames frames' := h
  unfold Scope.exit
  cases hframes with
  | nil => exact .noClass h
  | @cons frame frame' _ _ hframe houter =>
    cases houter with
    | nil =>
      have hopen := hframe.firstOpen?
      simp only
      generalize frame.firstOpen? = first at hopen
      generalize frame'.firstOpen? = first' at hopen
      cases hopen with
      | none => exact .ok .nil
      | some huse => exact .diagnostic (.undeclaredPrivate huse.1 huse.2) .nil
    | cons hnext houter => exact .ok (.cons (hnext.absorb hframe) houter)

theorem abandon (h : s.Alike m s') : s.abandon.2.Alike m s'.abandon.2 := by
  obtain ⟨frames⟩ := s
  obtain ⟨frames'⟩ := s'
  have hframes : List.Forall₂ (Frame.Alike m) frames frames' := h
  unfold Scope.abandon
  cases hframes with
  | nil => exact h
  | cons _ houter => exact houter

end Scope.Alike

end JsClass
