import JsClass.Proofs.Endings.Statements

/-!
A field ends with a semicolon, or without one before a closing brace. So one of two runs may lack
the semicolon: they take the same rules as long as the semicolon is still to come, and behind it the
one that lacks it is at the brace.
-/
namespace JsClass

namespace Endings

open JsClass.Parser

variable {α β : Type} {q : Endings} {g : Grammar} {c : Context} {s t u : State} {S : Site}
  {h : Grammar.Head} {n : Node}

/-- The other ending lacks the semicolon before a closing brace. -/
structure Drops (q : Endings) : Prop where
  first : ∃ semi : Token, semi.kind = .punct .semicolon ∧ q.first = semi :: q.second
  second : (q.second.headD q.finish).kind = .punct .rbrace

/-- A run ends before the semicolon, or right behind it. -/
def Meets (q : Endings) (t : State) : Prop := t.pending = q.first ∨ t.pending = q.second

/-- Where the other run is when this one has come to the semicolon or has taken it. -/
def beyond (q : Endings) (t : State) : State := { t with pending := q.second }

theorem state_beyond (ht : t.pending = q.first) : q.state t = q.beyond t := by
  rw [state_eq [] ht]
  rfl

theorem beyond_self (ht : t.pending = q.second) : q.beyond t = t := by
  rw [beyond, ← ht]

/-- Behind the last token before the semicolon, the other run is at the brace. -/
theorem skip_beyond (hleft : q.Left 1 s) (hs : s.skip.pending = q.first) :
    (q.state s).skip = q.beyond s.skip := by
  rw [skip_state hleft, state_beyond hs]

namespace Drops

variable (hq : q.Drops)

include hq

theorem length : q.first.length = q.second.length + 1 := by
  obtain ⟨semi, -, hfirst⟩ := hq.first
  rw [hfirst, List.length_cons]

theorem next_first (hs : s.pending = q.first) : (c.next s).kind = .punct .semicolon := by
  obtain ⟨semi, hsemi, hfirst⟩ := hq.first
  rw [Context.next, hs, hfirst]
  exact hsemi

theorem behind_first (hc : c.finish.kind = .eof) (hs : s.pending = q.first) :
    ((s.pending.drop 1).headD c.finish).kind.EndsExpression := by
  obtain ⟨semi, -, hfirst⟩ := hq.first
  have hsecond := hq.second
  rw [hs, hfirst, List.drop_succ_cons, List.drop_zero]
  cases hrest : q.second with
  | nil => exact Or.inl hc
  | cons x rest =>
    rw [hrest] at hsecond
    exact Or.inr (Or.inr (Or.inr (Or.inr hsecond)))

theorem next_beyond : ((q.context c).next (q.beyond s)).kind = .punct .rbrace := hq.second

theorem next_skip (hleft : q.Left 1 s) (hs : s.skip.pending = q.first) :
    ((q.context c).next (q.state s).skip).kind = .punct .rbrace := by
  rw [skip_beyond hleft hs]
  exact hq.next_beyond

/-- A token that is no semicolon stands before it. -/
theorem left_of_ne (hs : q.Left 0 s) (hk : (c.next s).kind ≠ .punct .semicolon) : q.Left 1 s := by
  by_contra hnot
  exact hk (hq.next_first (hs.at_end hnot))

/-- A rule that does not end with a semicolon does not take this one last. -/
theorem not_last {l : α → Nat} {T : α → Prop} {a : α} {x : Reply α}
    (h : q.Continues l T (fun _ => False) s a t x) (hs : q.Left 0 s) : t.pending ≠ q.second := by
  intro ht
  obtain ⟨semi, hsemi, hfirst⟩ := hq.first
  refine h.last id semi ?_ hsemi
  rw [ht, ← hfirst]
  exact hs.1

/-- Before the semicolon was met, it was still to come, or it had been taken. -/
theorem left_or (hs : q.Left 0 s) (hu : u.pending <:+ s.pending) (ht : t.pending <:+ u.pending)
    (hmeets : q.Meets t) : q.Left 0 u ∨ u.pending = q.second ∧ t.pending = q.second := by
  have hlength := hq.length
  by_cases hle : q.first.length ≤ u.pending.length
  · exact Or.inl ⟨List.suffix_of_suffix_length_le hs.1 hu hle, hle⟩
  · rcases hmeets with hfirst | hsecond
    · exact absurd (hfirst ▸ ht.length_le) hle
    · have hsame : t.pending = u.pending := by
        refine ht.eq_of_length (Nat.le_antisymm ht.length_le ?_)
        rw [hsecond]
        omega
      exact Or.inr ⟨hsame ▸ hsecond, hsecond⟩

/-- A rule that does not end with a semicolon ends before this one, if it is met behind the rule. -/
theorem left_behind {l : α → Nat} {T : α → Prop} {a : α} {x : Reply α}
    (h : q.Continues l T (fun _ => False) s a u x) (hs : q.Left 0 s)
    (ht : t.pending <:+ u.pending) (hmeets : q.Meets t) : q.Left 0 u :=
  (hq.left_or hs h.suffix ht hmeets).resolve_right fun hu => hq.not_last h hs hu.1

theorem first_of_left (ht : q.Left 0 t) (hmeets : q.Meets t) : t.pending = q.first := by
  refine hmeets.resolve_right fun hsecond => ?_
  have hlength := hq.length
  have hle := ht.2
  rw [hsecond] at hle
  omega

/-- The semicolon is met where no more than it is left, and the rest of the other run as well. -/
theorem meets (hs : q.Left 0 s) (hu : u.pending <:+ s.pending) (hmore : ¬ q.Left 1 u)
    (hlength : q.second.length ≤ u.pending.length) : q.Meets u := by
  by_cases hle : q.first.length ≤ u.pending.length
  · exact Or.inl (Left.at_end ⟨List.suffix_of_suffix_length_le hs.1 hu hle, hle⟩ hmore)
  · have hfirst := hq.length
    obtain ⟨semi, -, hcons⟩ := hq.first
    have hsecond : q.second <:+ s.pending := (hcons ▸ List.suffix_cons semi q.second).trans hs.1
    refine Or.inr (List.IsSuffix.eq_of_length ?_ (by omega))
    exact List.suffix_of_suffix_length_le hu hsecond (by omega)

/-- No rule that takes a token, and no semicolon last, begins at the semicolon and ends there. -/
theorem not_between {l : α → Nat} {a : α} {x : Reply α}
    (h : q.Continues l (fun _ => True) (fun _ => False) s a t x) (hs : s.pending = q.first) :
    ¬ q.Meets t := by
  rintro (ht | ht)
  · have hlt := h.takes trivial
    rw [hs, ht] at hlt
    exact Nat.lt_irrefl _ hlt
  · exact hq.not_last h (left_iff.2 ⟨[], hs, Nat.le_refl _⟩) ht

end Drops

/-- Where the rule ends before the semicolon or right behind it, the rule does the same in the other
run, up to the brace. -/
def Closes (q : Endings) (S : Site) (p : Parser α) : Prop :=
  ∀ ⦃c s a t⦄, c.finish.kind = .eof → S c s → p c s = .ok a t → t.pending <:+ s.pending ∧
    (q.Left 0 s → q.Meets t → p (q.context c) (q.state s) = .ok a (q.beyond t))

namespace Closes

variable {p x y : Parser β} {r : Parser α} {f : α → Parser β} {U : α → Prop}

/-- Rules that do not end with a semicolon end before this one. -/
theorem of_runs {T : β → Prop} (hq : q.Drops)
    (hp : q.Runs S (fun _ => 0) T (fun _ => False) p) : q.Closes S p := by
  intro c s b t hc hS h
  have hrun := hp hc hS h
  refine ⟨hrun.suffix, fun hs hmeets => ?_⟩
  rcases hmeets with ht | ht
  · rw [← state_beyond ht]
    exact hrun.resumes (left_iff.2 ⟨[], ht, Nat.le_refl _⟩)
  · exact absurd ht (hq.not_last hrun hs)

theorem fails (hp : ∀ c s b t, p c s ≠ .ok b t) : q.Closes S p :=
  fun _ _ _ _ _ _ h => absurd h (hp _ _ _ _)

theorem bind (hq : q.Drops) (hr : q.Runs S (fun _ => 0) U (fun _ => False) r)
    (hf : ∀ a, q.Closes .anywhere (f a)) : q.Closes S (r >>= f) := by
  intro c s b t hc hS h
  obtain ⟨a, u, ha, hb⟩ := bind_eq_ok.1 h
  have hfirst := hr hc hS ha
  obtain ⟨hsuffix, hrest⟩ := hf a hc trivial hb
  refine ⟨hsuffix.trans hfirst.suffix, fun hs hmeets => ?_⟩
  have hu : q.Left 0 u := hq.left_behind hfirst hs hsuffix hmeets
  rw [bind_apply, hfirst.resumes hu]
  exact hrest hu hmeets

/-- What is done behind the end takes nothing and does not look. -/
theorem also (hr : q.Closes S r)
    (hf : ∀ a c u b t, f a c u = .ok b t → t = u ∧ ∀ d v, f a d v = .ok b v) :
    q.Closes S (r >>= f) := by
  intro c s b t hc hS h
  obtain ⟨a, u, ha, hb⟩ := bind_eq_ok.1 h
  obtain ⟨rfl, hsame⟩ := hf _ _ _ _ _ hb
  obtain ⟨hsuffix, hrun⟩ := hr hc hS ha
  refine ⟨hsuffix, fun hs hmeets => ?_⟩
  rw [bind_apply, hrun hs hmeets]
  exact hsame _ _

theorem look (hr : q.Looks 0 r) (hf : ∀ a, q.Closes S (f a)) : q.Closes S (r >>= f) := by
  intro c s b t hc hS h
  obtain ⟨a, ha, hsame⟩ := hr (s := s) hc
  rw [bind_apply, ha] at h
  obtain ⟨hsuffix, hrun⟩ := hf a hc hS h
  refine ⟨hsuffix, fun hs hmeets => ?_⟩
  rw [bind_apply, hsame hs]
  exact hrun hs hmeets

theorem context {f : Context → Parser β} (hsame : ∀ d, f (q.context d) = f d)
    (hf : ∀ d, q.Closes S (f d)) : q.Closes S (Parser.context >>= f) := by
  intro c s b t hc hS h
  obtain ⟨hsuffix, hrun⟩ := hf c hc hS h
  refine ⟨hsuffix, fun hs hmeets => ?_⟩
  show f (q.context c) (q.context c) (q.state s) = _
  rw [hsame]
  exact hrun hs hmeets

theorem glance {f : Token → Parser β} (hf : ∀ z, q.Closes .anywhere (f z))
    (hend : ∀ w z, w.kind.EndsExpression → z.kind.EndsExpression → f w = f z) :
    q.Closes S (Parser.peek >>= f) := by
  intro c s b t hc _ h
  obtain ⟨hsuffix, hrun⟩ := hf (c.next s) hc trivial h
  refine ⟨hsuffix, fun hs hmeets => ?_⟩
  show f ((q.context c).next (q.state s)) _ _ = _
  by_cases hmore : q.Left 1 s
  · rw [next_state hmore]
    exact hrun hs hmeets
  · obtain ⟨hfirst, hsecond⟩ := next_ends hc hs hmore
    rw [hend _ _ hsecond hfirst]
    exact hrun hs hmeets

theorem ite {P : Prop} [Decidable P] (hx : P → q.Closes S x) (hy : ¬ P → q.Closes S y) :
    q.Closes S (if P then x else y) := by
  split
  · exact hx ‹_›
  · exact hy ‹_›

theorem semicolon (hq : q.Drops) : q.Closes S Parser.semicolon := by
  intro c s _ t hc _ h
  obtain ⟨hnext, rfl⟩ | ⟨hnot, -, rfl⟩ := Sequel.Runs.semicolon_eq_ok.1 h
  · refine ⟨s.passes_skip.pending, fun hs hmeets => ?_⟩
    by_cases hmore : q.Left 1 s
    · have ht : s.skip.pending = q.first := hq.first_of_left hmore.skip hmeets
      rw [← state_beyond ht, ← skip_state hmore]
      exact Sequel.Runs.semicolon_eq_ok.2 (Or.inl ⟨by rwa [next_state hmore], rfl⟩)
    · -- this is the semicolon that the other run lacks
      rw [state_beyond (hs.at_end hmore)]
      refine Sequel.Runs.semicolon_eq_ok.2 (Or.inr ⟨?_, ?_, rfl⟩)
      · simp [hq.next_beyond]
      · simp [hq.next_beyond]
  · refine ⟨List.suffix_rfl, fun hs hmeets => ?_⟩
    exact absurd (hq.next_first (hq.first_of_left hs hmeets)) hnot

end Closes

/-! Members, from their ends to their starts. -/

theorem fieldElement_closes (hq : q.Drops) (hg : q.Keeps g) (h : Grammar.Head)
    (k : Grammar.PropertyKey) : q.Closes S (g.fieldElement h k) :=
  .bind hq (.within (fun _ => rfl) (fun _ => rfl) (initializer? hg)) fun _ =>
    .also (.semicolon hq) fun _ _ _ _ _ hb => by
      obtain ⟨rfl, rfl⟩ := pure_eq_ok.1 hb
      exact ⟨rfl, fun _ _ => rfl⟩

/-- What is asked of a static member is asked without a look at what follows. -/
theorem checkStaticConstructor_steady {h : Grammar.Head} {k : Grammar.PropertyKey} {m b : Node}
    (hrun : (do
      Grammar.checkStaticConstructor h k
      return m : Parser Node) c u = .ok b t) :
    t = u ∧ ∀ d v, (do
      Grammar.checkStaticConstructor h k
      return m : Parser Node) d v = .ok b v := by
  obtain ⟨_, v, hcheck, hb⟩ := bind_eq_ok.1 hrun
  obtain ⟨rfl, rfl⟩ := pure_eq_ok.1 hb
  rcases ite_eq_ok.1 hcheck with ⟨-, hfail⟩ | ⟨hnot, hdone⟩
  · exact (reject_eq_ok.1 hfail).elim
  · obtain ⟨-, rfl⟩ := pure_eq_ok.1 hdone
    refine ⟨rfl, fun d v => ?_⟩
    rw [Grammar.checkStaticConstructor, if_neg hnot]
    rfl

theorem methodOrField_closes (hq : q.Drops) (hg : q.Keeps g) (h : Grammar.Head)
    (k : Grammar.PropertyKey) : q.Closes S (g.methodOrField h k) :=
  .look (.check (by decide)) fun _ => .context (fun _ => rfl) fun _ => .ite
    (fun _ => .also (fieldElement_closes hq hg h k) fun _ _ _ _ _ =>
      checkStaticConstructor_steady)
    fun _ => .of_runs hq (T := fun _ => True) (.take (methodElement hg h k _) fun _ =>
      .bind (checkStaticConstructor h k) fun _ => .done)

theorem privateField_closes (hq : q.Drops) (hg : q.Keeps g) (h : Grammar.Head)
    (k : Grammar.PropertyKey) : q.Closes S (g.privateField h k) := by
  refine .ite (fun _ => .fails fun _ _ _ _ h => unexpectedNext_eq_ok.1 h) fun _ => ?_
  split
  · exact .ite (fun _ => .fails fun _ _ _ _ h => reject_eq_ok.1 h) fun _ =>
      fieldElement_closes hq hg h k
  · exact fieldElement_closes hq hg h k

theorem elementRest_closes (hq : q.Drops) (hg : q.Keeps g) (h : Grammar.Head) :
    q.Closes S (g.elementRest h) := by
  unfold Grammar.elementRest
  split
  · exact methodOrField_closes hq hg h _
  · refine .glance (fun z => .ite (fun _ => ?_) fun _ => ?_) fun w z hw hz => ?_
    · exact .bind hq (privateKey h) fun key => .look (.check (by decide)) fun _ =>
        .ite (fun _ => methodOrField_closes hq hg h key) fun _ => privateField_closes hq hg h key
    · exact .bind hq (propertyKey hg) fun key => .ite
        (fun _ => .fails fun _ _ _ _ h => reject_eq_ok.1 h) fun _ =>
          methodOrField_closes hq hg h key
    · rw [if_neg (by rcases hw with hw | hw | hw | hw | hw <;> simp [hw, Kind.isPrivateName]),
        if_neg (by rcases hz with hz | hz | hz | hz | hz <;> simp [hz, Kind.isPrivateName])]

end Endings

end JsClass
