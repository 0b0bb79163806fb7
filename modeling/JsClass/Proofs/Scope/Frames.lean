import JsClass.Scope.Basic

/-!
What the tables of a frame hold after an operation. A frame keeps one position for each open name,
so its open uses stand for all uses that were recorded: each of these has an open use of the same
name at or before its position.
-/
namespace JsClass

namespace Position

theorem lt_iff {p q : Position} :
    p.lt q = true ↔ p.line < q.line ∨ p.line = q.line ∧ p.col < q.col := by
  simp [lt]

theorem not_lt_self (p : Position) : ¬ p.lt p := by
  simp [lt_iff]

theorem not_lt_trans {p q r : Position} (hpq : ¬ q.lt p) (hqr : ¬ r.lt q) : ¬ r.lt p := by
  simp only [lt_iff] at *
  omega

theorem eq_of_not_lt {p q : Position} (hpq : ¬ p.lt q) (hqp : ¬ q.lt p) : p = q := by
  obtain ⟨line, col⟩ := p
  obtain ⟨line', col'⟩ := q
  simp only [lt_iff] at hpq hqp
  simp only [mk.injEq]
  omega

theorem not_lt_of_lt {p q : Position} (h : p.lt q) : ¬ q.lt p := by
  simp only [lt_iff] at *
  omega

end Position

namespace Assoc

variable {β : Type} {table : Assoc β} {name : String} {value : β} {entry : String × β}

theorem lookup_cons (other key : String) (value : β) (table : Assoc β) :
    List.lookup other ((key, value) :: table) =
      if other = key then some value else table.lookup other := by
  by_cases h : other = key
  · simp [h]
  · have : (other == key) = false := by simpa using h
    simp [List.lookup_cons, this, h]

@[simp] theorem lookup_put (table : Assoc β) (name other : String) (value : β) :
    (table.put name value).lookup other =
      if other = name then some value else table.lookup other := by
  induction table with
  | nil => simp [put, lookup_cons]
  | cons e table ih =>
    obtain ⟨k, v⟩ := e
    by_cases hk : k = name
    · subst hk
      by_cases h : other = k <;> simp [put, lookup_cons, h]
    · by_cases ho : other = k
      · subst ho
        simp [put, hk]
      · simp [put, lookup_cons, hk, ho, ih]

theorem mem_of_lookup (h : table.lookup name = some value) : (name, value) ∈ table := by
  induction table with
  | nil => simp at h
  | cons e table ih =>
    obtain ⟨k, v⟩ := e
    rw [lookup_cons] at h
    by_cases hk : name = k
    · simp_all
    · rw [if_neg hk] at h
      exact List.mem_cons_of_mem _ (ih h)

theorem mem_put_self : (name, value) ∈ table.put name value :=
  mem_of_lookup (by simp)

theorem eq_or_mem_of_mem_put (h : entry ∈ table.put name value) :
    entry = (name, value) ∨ entry ∈ table := by
  induction table with
  | nil => simpa [put] using h
  | cons e table ih =>
    obtain ⟨k, v⟩ := e
    by_cases hk : k = name
    · subst hk
      simp only [put, ↓reduceIte, List.mem_cons] at h ⊢
      exact h.imp_right Or.inr
    · simp only [put, hk, ↓reduceIte, List.mem_cons] at h ⊢
      rcases h with h | h
      · exact Or.inr (Or.inl h)
      · exact (ih h).imp_right Or.inr

/-- Setting a value replaces only the entry that a look-up finds. -/
theorem mem_put_or_lookup (h : entry ∈ table) (name : String) (value : β) :
    entry ∈ table.put name value ∨ entry.1 = name ∧ table.lookup name = some entry.2 := by
  induction table with
  | nil => simp at h
  | cons e table ih =>
    obtain ⟨k, v⟩ := e
    by_cases hk : k = name
    · subst hk
      rcases List.mem_cons.1 h with rfl | h
      · exact Or.inr (by simp)
      · exact Or.inl (by simp [put, h])
    · rcases List.mem_cons.1 h with rfl | h
      · exact Or.inl (by simp [put, hk])
      · exact (ih h).imp (by simp +contextual [put, hk]) (by simp [lookup_cons, Ne.symm hk])

theorem mem_erase : entry ∈ table.erase name ↔ entry ∈ table ∧ entry.1 ≠ name := by
  simp [erase]

theorem nodup_put (h : (table.map (·.1)).Nodup) (name : String) (value : β) :
    ((table.put name value).map (·.1)).Nodup := by
  induction table with
  | nil => simp [put]
  | cons e table ih =>
    obtain ⟨k, v⟩ := e
    rw [List.map_cons, List.nodup_cons] at h
    by_cases hk : k = name
    · simpa [put, hk] using h
    · simp only [put, hk, ↓reduceIte, List.map_cons, List.nodup_cons]
      refine ⟨fun hmem => h.1 ?_, ih h.2⟩
      obtain ⟨entry, hentry, rfl⟩ := List.mem_map.1 hmem
      rcases eq_or_mem_of_mem_put hentry with rfl | hentry
      · exact absurd rfl hk
      · exact List.mem_map.2 ⟨entry, hentry, rfl⟩

theorem nodup_erase (h : (table.map (·.1)).Nodup) (name : String) :
    ((table.erase name).map (·.1)).Nodup :=
  h.sublist (List.filter_sublist.map _)

end Assoc

/-- The open uses `ys` stand for the uses `xs`: none is made up, and every use has one of its name
that is not behind it. -/
def Represents (ys xs : List (String × Position)) : Prop :=
  ys ⊆ xs ∧ ∀ x ∈ xs, ∃ y ∈ ys, y.1 = x.1 ∧ ¬ x.2.lt y.2

namespace Represents

variable {xs ys zs ws : List (String × Position)}

theorem refl (xs : List (String × Position)) : Represents xs xs :=
  ⟨fun _ h => h, fun x hx => ⟨x, hx, rfl, Position.not_lt_self _⟩⟩

theorem of_mem_iff (h : ∀ x, x ∈ ys ↔ x ∈ xs) : Represents ys xs :=
  ⟨fun x => (h x).1, fun x hx => ⟨x, (h x).2 hx, rfl, Position.not_lt_self _⟩⟩

theorem trans (hz : Represents zs ys) (hy : Represents ys xs) : Represents zs xs := by
  refine ⟨fun z h => hy.1 (hz.1 h), ?_⟩
  intro x hx
  obtain ⟨y, hym, hyn, hyp⟩ := hy.2 x hx
  obtain ⟨z, hzm, hzn, hzp⟩ := hz.2 y hym
  exact ⟨z, hzm, hzn.trans hyn, Position.not_lt_trans hzp hyp⟩

theorem append (hy : Represents ys xs) (hz : Represents zs ws) :
    Represents (ys ++ zs) (xs ++ ws) := by
  constructor
  · intro u hu
    rcases List.mem_append.1 hu with h | h
    · exact List.mem_append_left _ (hy.1 h)
    · exact List.mem_append_right _ (hz.1 h)
  · intro x hx
    rcases List.mem_append.1 hx with h | h
    · obtain ⟨y, hm, hr⟩ := hy.2 x h
      exact ⟨y, List.mem_append_left _ hm, hr⟩
    · obtain ⟨z, hm, hr⟩ := hz.2 x h
      exact ⟨z, List.mem_append_right _ hm, hr⟩

/-- Whether a use is kept may depend on its name only. -/
theorem filter (keep : String → Bool) (h : Represents ys xs) :
    Represents (ys.filter (keep ·.1)) (xs.filter (keep ·.1)) := by
  constructor
  · intro y hy
    rw [List.mem_filter] at hy ⊢
    exact ⟨h.1 hy.1, hy.2⟩
  · intro x hx
    rw [List.mem_filter] at hx
    obtain ⟨y, hy, hn, hp⟩ := h.2 x hx.1
    exact ⟨y, List.mem_filter.2 ⟨hy, by rw [hn]; exact hx.2⟩, hn, hp⟩

end Represents

namespace Frame

variable {f inner : Frame} {name other : String} {pos : Position}

@[simp] theorem kindOf?_empty (name : String) : empty.kindOf? name = none := rfl

@[simp] theorem kindOf?_bind (f : Frame) (name other : String) (kind : ElementKind) :
    (f.bind name kind).kindOf? other = if other = name then some kind else f.kindOf? other :=
  Assoc.lookup_put _ _ _ _

@[simp] theorem unresolved_bind (f : Frame) (name : String) (kind : ElementKind) :
    (f.bind name kind).unresolved = f.unresolved.erase name := rfl

@[simp] theorem kindOf?_record (f : Frame) (name other : String) (pos : Position) :
    (f.record name pos).kindOf? other = f.kindOf? other := by
  unfold record
  split
  · split <;> rfl
  · rfl

theorem record_represents (f : Frame) (name : String) (pos : Position) :
    Represents (f.record name pos).unresolved (f.unresolved ++ [(name, pos)]) := by
  have put_represents : (∀ old, f.unresolved.lookup name = some old → pos.lt old) →
      Represents (f.unresolved.put name pos) (f.unresolved ++ [(name, pos)]) := by
    intro least
    constructor
    · intro u hu
      rcases Assoc.eq_or_mem_of_mem_put hu with rfl | h <;> simp_all
    · intro u hu
      rcases List.mem_append.1 hu with h | h
      · rcases Assoc.mem_put_or_lookup h name pos with hp | ⟨hn, hl⟩
        · exact ⟨u, hp, rfl, Position.not_lt_self _⟩
        · exact ⟨(name, pos), Assoc.mem_put_self, hn.symm,
            Position.not_lt_of_lt (least _ hl)⟩
      · obtain rfl := List.mem_singleton.1 h
        exact ⟨_, Assoc.mem_put_self, rfl, Position.not_lt_self _⟩
  unfold record
  split
  · next old hl =>
    split
    · next hlt =>
      apply put_represents
      intro old' hl'
      rw [hl] at hl'
      cases hl'
      exact hlt
    · next hlt =>
      refine ⟨fun u hu => List.mem_append_left _ hu, ?_⟩
      intro u hu
      rcases List.mem_append.1 hu with h | h
      · exact ⟨u, h, rfl, Position.not_lt_self _⟩
      · obtain rfl := List.mem_singleton.1 h
        exact ⟨(name, old), Assoc.mem_of_lookup hl, rfl, hlt⟩
  · next hl =>
    apply put_represents
    simp [hl]

theorem absorb_cons (f : Frame) (u : String × Position) (us : Assoc Position)
    (bound : Assoc ElementKind) :
    f.absorb ⟨bound, u :: us⟩ = (f.record u.1 u.2).absorb ⟨bound, us⟩ := rfl

@[simp] theorem kindOf?_absorb (f inner : Frame) (name : String) :
    (f.absorb inner).kindOf? name = f.kindOf? name := by
  obtain ⟨bound, us⟩ := inner
  induction us generalizing f with
  | nil => rfl
  | cons u us ih => rw [absorb_cons, ih, kindOf?_record]

theorem absorb_represents (f inner : Frame) :
    Represents (f.absorb inner).unresolved (f.unresolved ++ inner.unresolved) := by
  obtain ⟨bound, us⟩ := inner
  induction us generalizing f with
  | nil => simpa [absorb] using Represents.refl f.unresolved
  | cons u us ih =>
    have hr := (record_represents f u.1 u.2).append (.refl us)
    rw [absorb_cons]
    simpa using (ih (f.record u.1 u.2)).trans hr

theorem nodup_record (h : (f.unresolved.map (·.1)).Nodup) (name : String) (pos : Position) :
    ((f.record name pos).unresolved.map (·.1)).Nodup := by
  unfold record
  split
  · split
    · exact Assoc.nodup_put h name pos
    · exact h
  · exact Assoc.nodup_put h name pos

theorem nodup_absorb (h : (f.unresolved.map (·.1)).Nodup) (inner : Frame) :
    ((f.absorb inner).unresolved.map (·.1)).Nodup := by
  obtain ⟨bound, us⟩ := inner
  induction us generalizing f with
  | nil => exact h
  | cons u us ih => exact ih (nodup_record h u.1 u.2)

/-- Looking on from a use keeps the least position. -/
private theorem foldl_step_some (us : List (String × Position)) (u : String × Position) :
    ∃ v, us.foldl firstOpen?.step (some u) = some v ∧ v ∈ u :: us ∧
      ∀ w ∈ u :: us, ¬ w.2.lt v.2 := by
  induction us generalizing u with
  | nil => exact ⟨u, rfl, by simp, by simp [Position.not_lt_self]⟩
  | cons x us ih =>
    by_cases hx : x.2.lt u.2
    · obtain ⟨v, hv, hm, hl⟩ := ih x
      refine ⟨v, by simpa [firstOpen?.step, hx] using hv, List.mem_cons_of_mem _ hm, ?_⟩
      intro w hw
      rcases List.mem_cons.1 hw with rfl | hw
      · exact Position.not_lt_trans (hl x (by simp)) (Position.not_lt_of_lt hx)
      · exact hl w hw
    · obtain ⟨v, hv, hm, hl⟩ := ih u
      refine ⟨v, by simpa [firstOpen?.step, hx] using hv, ?_, ?_⟩
      · rcases List.mem_cons.1 hm with rfl | hm <;> simp_all
      · intro w hw
        rcases List.mem_cons.1 hw with rfl | hw
        · exact hl _ (by simp)
        · rcases List.mem_cons.1 hw with rfl | hw
          · exact Position.not_lt_trans (hl u (by simp)) hx
          · exact hl w (by simp [hw])

theorem firstOpen?_cases (f : Frame) :
    f.firstOpen? = none ∧ f.unresolved = [] ∨
      ∃ u ∈ f.unresolved, f.firstOpen? = some u ∧ ∀ v ∈ f.unresolved, ¬ v.2.lt u.2 := by
  obtain ⟨bound, us⟩ := f
  cases us with
  | nil => exact Or.inl ⟨rfl, rfl⟩
  | cons u us =>
    obtain ⟨v, hv, hm, hl⟩ := foldl_step_some us u
    exact Or.inr ⟨v, hm, hv, hl⟩

end Frame

end JsClass
