import JsClass.Proofs.Scope.Resolution

/-!
What a history of operations leaves behind. A refused operation does not end it: the next one finds
the scope as it is.
-/
namespace JsClass.Scope

variable {s : Scope} {frame : Frame} {name : String} {kind : ElementKind}
variable {kinds : List ElementKind}

/-- The scope at the end of a trace. -/
def after (s : Scope) (steps : List Step) : Scope :=
  ((trace s steps).getLast?.map Entry.scope).getD s

@[simp] theorem after_nil (s : Scope) : after s [] = s := rfl

@[simp] theorem after_cons (s : Scope) (step : Step) (steps : List Step) :
    after s (step :: steps) = after (step.run s).scope steps := by
  simp only [after, trace, List.getLast?_append, List.getLast?_cons]
  cases (trace (step.run s).scope steps).getLast? <;> rfl

theorem after_append (s : Scope) (steps more : List Step) :
    after s (steps ++ more) = after (after s steps) more := by
  induction steps generalizing s with
  | nil => rfl
  | cons step steps ih => rw [List.cons_append, after_cons, after_cons, ih]

theorem call_run_scope (s : Scope) (call : Call) : (call.step.run s).scope = (call.apply s).2 := by
  rw [step_run]
  rcases call.apply s with ⟨⟨e⟩ | ⟨⟩, t⟩ <;> rfl

/-! Declarations of one name. -/

/-- What a name stands for that was declared with these kinds. -/
def joined : List ElementKind → Option ElementKind
  | [] => none
  | [kind] => some kind
  | _ => some .both

theorem joined_eq_none : joined kinds = none ↔ kinds = [] := by
  rcases kinds with _ | ⟨a, _ | ⟨b, kinds⟩⟩ <;> simp [joined]

/-- What may be declared together may be declared in part. -/
theorem canShare_of_append {more : List ElementKind} (h : canShare (kinds ++ more)) :
    canShare kinds := by
  rcases kinds with _ | ⟨a, _ | ⟨b, _ | ⟨c, kinds⟩⟩⟩
  · rfl
  · rfl
  · cases more with
    | nil => simpa using h
    | cons m more => cases a <;> cases b <;> cases h
  · cases a <;> cases b <;> cases h

/-- The next kind joins what the name stands for, if it may be declared behind the kinds before. -/
theorem joinKinds?_joined (h : canShare kinds) {existing : ElementKind}
    (he : joined kinds = some existing) (kind : ElementKind) :
    joinKinds? existing kind =
      if canShare (kinds ++ [kind]) then joined (kinds ++ [kind]) else none := by
  rcases kinds with _ | ⟨a, _ | ⟨b, _ | ⟨c, kinds⟩⟩⟩
  · cases he
  · cases he
    cases existing <;> cases kind <;> rfl
  · cases he
    cases a <;> cases b <;> cases h <;> rfl
  · cases a <;> cases b <;> cases h

/-- A declaration that goes together with those before it is kept. -/
theorem declare_joins (hk : frame.kindOf? name = joined kinds) (h : canShare (kinds ++ [kind]))
    (pos : Position) (outer : List Frame) : ∃ k, joined (kinds ++ [kind]) = some k ∧
      Scope.declare ⟨frame :: outer⟩ name kind pos = (.ok (), ⟨frame.bind name k :: outer⟩) := by
  cases he : joined kinds with
  | none =>
    obtain rfl := joined_eq_none.1 he
    exact ⟨kind, rfl, by simp [Scope.declare, hk, he]⟩
  | some existing =>
    have hjoin := joinKinds?_joined (canShare_of_append h) he kind
    rw [if_pos h] at hjoin
    obtain ⟨k, hk'⟩ : ∃ k, joined (kinds ++ [kind]) = some k :=
      Option.ne_none_iff_exists'.1 fun hnone => by simp [joined_eq_none] at hnone
    exact ⟨k, hk', by simp [Scope.declare, hk, he, hjoin, hk']⟩

/-- A declaration that does not is refused where it stands. -/
theorem declare_refuses (hk : frame.kindOf? name = joined kinds) (hkinds : canShare kinds)
    (h : ¬ canShare (kinds ++ [kind])) (pos : Position) (outer : List Frame) :
    Scope.declare ⟨frame :: outer⟩ name kind pos =
      (.error (.diagnostic ⟨.duplicatePrivate name, pos⟩), ⟨frame :: outer⟩) := by
  cases he : joined kinds with
  | none =>
    obtain rfl := joined_eq_none.1 he
    exact absurd rfl h
  | some existing =>
    have hjoin := joinKinds?_joined hkinds he kind
    rw [if_neg h] at hjoin
    simp [Scope.declare, hk, he, hjoin]

theorem kindsOf_append (name : String) (ds more : List (String × ElementKind)) :
    kindsOf name (ds ++ more) = kindsOf name ds ++ kindsOf name more := by
  simp [kindsOf]

variable {ds ds' : List (String × ElementKind)}

theorem compatible_of_append (h : compatible (ds ++ ds')) : compatible ds := by
  refine compatible_iff.2 fun n => ?_
  have hn := compatible_iff.1 h n
  rw [kindsOf_append] at hn
  exact canShare_of_append hn

/-- Only the kinds of its name matter to a declaration. -/
theorem compatible_snoc (h : compatible ds) :
    compatible (ds ++ [(name, kind)]) ↔ canShare (kindsOf name ds ++ [kind]) := by
  rw [compatible_iff]
  constructor
  · intro hall
    simpa [kindsOf_append, kindsOf_cons_self, kindsOf] using hall name
  · intro hname n
    rw [kindsOf_append]
    by_cases hn : n = name
    · subst hn
      rwa [kindsOf_cons_self]
    · rw [kindsOf_cons_ne (Ne.symm hn)]
      simpa [kindsOf] using compatible_iff.1 h n

/-- Every name of the frame stands for what it was declared with. -/
def Holds (frame : Frame) (ds : List (String × ElementKind)) : Prop :=
  ∀ name, frame.kindOf? name = joined (kindsOf name ds)

theorem holds_empty : Holds .empty [] := fun _ => rfl

theorem Holds.bind (h : Holds frame ds) {k : ElementKind}
    (hk : joined (kindsOf name ds ++ [kind]) = some k) :
    Holds (frame.bind name k) (ds ++ [(name, kind)]) := by
  intro n
  rw [Frame.kindOf?_bind, kindsOf_append]
  by_cases hn : n = name
  · subst hn
    rw [if_pos rfl, kindsOf_cons_self]
    exact hk.symm
  · rw [if_neg hn, kindsOf_cons_ne (Ne.symm hn), h n]
    simp [kindsOf]

end JsClass.Scope
