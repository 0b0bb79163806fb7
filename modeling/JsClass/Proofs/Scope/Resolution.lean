import JsClass.Proofs.Scope.Calls
import JsClass.Proofs.Scope.Frames

/-!
The frames of a scope against the two passes. While calls are still to come, a frame knows only
what its body has declared so far; with the declarations to come it knows all names of the body.
The open uses that no later declaration will close, and the unresolved uses among the calls to
come, are together what the end of the outermost body must report.
-/
namespace JsClass.Scope

/-- Whether a name that stands for `existing` may be declared with all these kinds. -/
def joinable : Option ElementKind → List ElementKind → Bool
  | _, [] => true
  | none, kind :: kinds => joinable (some kind) kinds
  | some existing, kind :: kinds =>
    match joinKinds? existing kind with
    | none => false
    | some joined => joinable (some joined) kinds

/-- Every frame, with what its body will declare later, has the names of its body. -/
def Agree : (Nat → List (String × ElementKind)) → List (List String) → List Frame → Prop
  | _, [], [] => True
  | later, names :: bodies, frame :: frames =>
    (∀ n, n ∈ names ↔ (frame.kindOf? n).isSome ∨ n ∈ (later 0).map (·.1)) ∧
      Agree (fun depth => later (depth + 1)) bodies frames
  | _, _, _ => False

/-- No later declaration of a body is in conflict with its frame. -/
def Accept : (Nat → List (String × ElementKind)) → List Frame → Prop
  | _, [] => True
  | later, frame :: frames =>
    (∀ n, joinable (frame.kindOf? n) (kindsOf n (later 0))) ∧
      Accept (fun depth => later (depth + 1)) frames

/-- A name that is open in a frame is bound neither there nor further out. -/
def Tidy : List Frame → Prop
  | [] => True
  | frame :: frames =>
    (∀ u ∈ frame.unresolved, ∀ f ∈ frame :: frames, f.kindOf? u.1 = none) ∧ Tidy frames

/-- The open uses that stay open. -/
def survivors : List (List String) → List Frame → List (String × Position)
  | names :: bodies, frame :: frames =>
    frame.unresolved.filter (fun u => !declaredIn (names :: bodies) u.1) ++ survivors bodies frames
  | _, _ => []

/-- What holds between the bodies of the first pass, the frames and the calls to come. -/
structure Tracks (bodies : List (List String)) (frames : List Frame) (rest : List Call) : Prop where
  agree : Agree (fun depth => declares depth rest) bodies frames
  accept : Accept (fun depth => declares depth rest) frames
  tidy : Tidy frames
  free : conflictFree rest

theorem kindsOf_cons_self (name : String) (kind : ElementKind) (ds : List (String × ElementKind)) :
    kindsOf name ((name, kind) :: ds) = kind :: kindsOf name ds := by
  simp [kindsOf]

theorem kindsOf_cons_ne {name other : String} (h : other ≠ name) (kind : ElementKind)
    (ds : List (String × ElementKind)) : kindsOf name ((other, kind) :: ds) = kindsOf name ds := by
  simp [kindsOf, h]

/-- A name is declared at most twice, as what a getter and a setter join to joins with nothing. -/
theorem joinable_none_iff (kinds : List ElementKind) : joinable none kinds = canShare kinds := by
  rcases kinds with _ | ⟨a, _ | ⟨b, _ | ⟨c, kinds⟩⟩⟩
  · rfl
  · rfl
  · cases a <;> cases b <;> rfl
  · cases a <;> cases b <;> rfl

/-- A new body takes its declarations if they are compatible. -/
theorem joinable_empty_iff {ds : List (String × ElementKind)} :
    (∀ n, joinable (Frame.empty.kindOf? n) (kindsOf n ds)) ↔ compatible ds := by
  simp only [Frame.kindOf?_empty, joinable_none_iff, compatible_iff]

/-- A declaration joins what its name stands for. If it cannot, it is refused, and the name may not
be declared so whatever comes behind. -/
theorem declare_cases (frame : Frame) (outer : List Frame) (name : String) (kind : ElementKind)
    (pos : Position) :
    (∃ joined, Scope.declare ⟨frame :: outer⟩ name kind pos =
        (.ok (), ⟨frame.bind name joined :: outer⟩) ∧
      ∀ kinds, joinable (frame.kindOf? name) (kind :: kinds) = joinable (some joined) kinds) ∨
    ∃ e, Scope.declare ⟨frame :: outer⟩ name kind pos = (.error e, ⟨frame :: outer⟩) ∧
      ∀ kinds, joinable (frame.kindOf? name) (kind :: kinds) = false := by
  unfold Scope.declare
  dsimp only
  split
  · next hk =>
    rw [hk]
    exact Or.inl ⟨kind, rfl, fun _ => rfl⟩
  · next hk =>
    rw [hk]
    split
    · next hjoin => exact Or.inr ⟨_, rfl, fun _ => by simp [joinable, hjoin]⟩
    · next joined hjoin => exact Or.inl ⟨joined, rfl, fun _ => by simp [joinable, hjoin]⟩

theorem declaredIn_cons (names : List String) (bodies : List (List String)) (name : String) :
    declaredIn (names :: bodies) name = (names.contains name || declaredIn bodies name) := rfl

/-- A name that a frame binds is a name of some body. -/
theorem Agree.declaredIn_of_bound {later : Nat → List (String × ElementKind)}
    {bodies : List (List String)} {frames : List Frame} {name : String}
    (h : Agree later bodies frames) (hb : frames.any fun f => (f.kindOf? name).isSome) :
    declaredIn bodies name := by
  induction bodies generalizing later frames with
  | nil => cases frames <;> simp_all [Agree]
  | cons names bodies ih =>
    cases frames with
    | nil => simp at hb
    | cons frame frames =>
      rw [List.any_cons, Bool.or_eq_true] at hb
      rw [declaredIn_cons, Bool.or_eq_true]
      rcases hb with hb | hb
      · exact Or.inl (List.contains_iff_mem.2 ((h.1 name).2 (Or.inl hb)))
      · exact Or.inr (ih h.2 hb)

section

variable {names : List String} {bodies : List (List String)} {frame next : Frame}
variable {frames : List Frame} {rest : List Call} {name : String} {kind : ElementKind}
variable {pos : Position}

theorem Tidy.bind (h : Tidy (frame :: frames)) (name : String) (kind : ElementKind) :
    Tidy (frame.bind name kind :: frames) := by
  refine ⟨?_, h.2⟩
  intro u hu f hf
  rw [Frame.unresolved_bind, Assoc.mem_erase] at hu
  rcases List.mem_cons.1 hf with rfl | hf
  · rw [Frame.kindOf?_bind, if_neg hu.2]
    exact h.1 u hu.1 frame (by simp)
  · exact h.1 u hu.1 f (List.mem_cons_of_mem _ hf)

theorem Tidy.record (h : Tidy (frame :: frames))
    (hn : ∀ f ∈ frame :: frames, f.kindOf? name = none) (pos : Position) :
    Tidy (frame.record name pos :: frames) := by
  refine ⟨?_, h.2⟩
  intro u hu f hf
  have hfree : ∀ f ∈ frame :: frames, f.kindOf? u.1 = none := by
    rcases List.mem_append.1 ((Frame.record_represents frame name pos).1 hu) with hu | hu
    · exact h.1 u hu
    · obtain rfl := List.mem_singleton.1 hu
      exact hn
  rcases List.mem_cons.1 hf with rfl | hf
  · rw [Frame.kindOf?_record]
    exact hfree frame (by simp)
  · exact hfree f (List.mem_cons_of_mem _ hf)

/-- What was open in a body that ends is free in all bodies around it. -/
theorem Tidy.absorb (h : Tidy (frame :: next :: frames)) :
    Tidy (next.absorb frame :: frames) := by
  obtain ⟨hopen, hti⟩ := h
  refine ⟨?_, hti.2⟩
  intro u hu f hf
  have hfree : ∀ f ∈ next :: frames, f.kindOf? u.1 = none := by
    rcases List.mem_append.1 ((Frame.absorb_represents next frame).1 hu) with hu | hu
    · exact hti.1 u hu
    · exact fun f hf => hopen u hu f (List.mem_cons_of_mem _ hf)
  rcases List.mem_cons.1 hf with rfl | hf
  · rw [Frame.kindOf?_absorb]
    exact hfree next (by simp)
  · exact hfree f (List.mem_cons_of_mem _ hf)

/-! What a frame accepts before a call and behind it. -/

theorem accept_nil (frames : List Frame) : Accept (fun depth => declares depth []) frames := by
  induction frames with
  | nil => trivial
  | cons frame frames ih => exact ⟨fun n => by simp [declares, kindsOf, joinable], ih⟩

theorem accept_declare_iff {joined : ElementKind}
    (hj : ∀ kinds, joinable (frame.kindOf? name) (kind :: kinds) = joinable (some joined) kinds) :
    Accept (fun depth => declares depth (.declare name kind pos :: rest)) (frame :: frames) ↔
      Accept (fun depth => declares depth rest) (frame.bind name joined :: frames) := by
  refine and_congr_left' (forall_congr' fun n => ?_)
  simp only [Frame.kindOf?_bind, declares]
  by_cases hn : n = name
  · rw [if_pos hn, hn, kindsOf_cons_self, hj]
  · rw [if_neg hn, kindsOf_cons_ne (Ne.symm hn)]

theorem accept_record_iff {later : Nat → List (String × ElementKind)} :
    Accept later (frame.record name pos :: frames) ↔ Accept later (frame :: frames) := by
  simp only [Accept, Frame.kindOf?_record]

theorem accept_exit (frame : Frame) (rest : List Call) :
    Accept (fun depth => declares depth (.exit :: rest)) [frame] :=
  ⟨fun n => by simp [declares, kindsOf, joinable], trivial⟩

theorem accept_exit_iff :
    Accept (fun depth => declares depth (.exit :: rest)) (frame :: next :: frames) ↔
      Accept (fun depth => declares depth rest) (next.absorb frame :: frames) := by
  simp [Accept, declares, kindsOf, joinable]

/-! One call, seen from the frames and from the bodies. -/

theorem Tracks.bodies_ne_nil (h : Tracks bodies (frame :: frames) rest) : bodies ≠ [] := by
  rintro rfl
  exact h.agree.elim

theorem Tracks.enter (h : Tracks bodies frames (.enter :: rest)) :
    Tracks (bodyNames rest :: bodies) (.empty :: frames) rest := by
  have hf := h.free
  simp only [conflictFree, Bool.and_eq_true] at hf
  refine ⟨⟨by simp [bodyNames], h.agree⟩, ⟨joinable_empty_iff.2 hf.1, h.accept⟩, ⟨?_, h.tidy⟩, hf.2⟩
  simp [Frame.empty]

/-- The call is not refused, and the name keeps counting among those of its body. -/
theorem Tracks.declare (h : Tracks bodies (frame :: frames) (.declare name kind pos :: rest)) :
    ∃ joined, Scope.declare ⟨frame :: frames⟩ name kind pos =
        (.ok (), ⟨frame.bind name joined :: frames⟩) ∧
      Tracks bodies (frame.bind name joined :: frames) rest := by
  obtain ⟨hag, hac, hti, hfr⟩ := h
  have hname := hac.1 name
  simp only [declares, kindsOf_cons_self] at hname
  rcases declare_cases frame frames name kind pos with ⟨joined, hd, hj⟩ | ⟨e, -, hj⟩
  · refine ⟨joined, hd, ?_, (accept_declare_iff hj).1 hac, hti.bind name joined, hfr⟩
    cases bodies with
    | nil => exact hag.elim
    | cons names bodies =>
      refine ⟨fun n => ?_, hag.2⟩
      rw [hag.1 n, Frame.kindOf?_bind]
      by_cases hn : n = name <;> simp [declares, hn]
  · simp [hj] at hname

/-- Declaring closes only uses that were going to be closed. -/
theorem survivors_bind (hn : name ∈ names) (kind : ElementKind) :
    survivors (names :: bodies) (frame.bind name kind :: frames) =
      survivors (names :: bodies) (frame :: frames) := by
  have hd : declaredIn (names :: bodies) name = true := by
    rw [declaredIn_cons, List.contains_iff_mem.2 hn, Bool.true_or]
  simp only [survivors, Frame.unresolved_bind, Assoc.erase, List.filter_filter]
  congr 2
  funext u
  by_cases he : u.1 = name <;> simp [he, hd]

theorem Tracks.record (h : Tracks bodies (frame :: frames) rest)
    (hn : ∀ f ∈ frame :: frames, f.kindOf? name = none) (pos : Position) :
    Tracks bodies (frame.record name pos :: frames) rest := by
  obtain ⟨hag, hac, hti, hfr⟩ := h
  refine ⟨?_, accept_record_iff.2 hac, hti.record hn pos, hfr⟩
  cases bodies with
  | nil => exact hag.elim
  | cons names bodies => exact ⟨by simpa using hag.1, hag.2⟩

theorem Tracks.exit (h : Tracks (names :: bodies) (frame :: next :: frames) (.exit :: rest)) :
    Tracks bodies (next.absorb frame :: frames) rest := by
  obtain ⟨⟨-, hag⟩, hac, hti, hfr⟩ := h
  simp only [declares] at hag
  refine ⟨?_, accept_exit_iff.1 hac, hti.absorb, hfr⟩
  cases bodies with
  | nil => exact hag.elim
  | cons names bodies => exact ⟨by simpa using hag.1, hag.2⟩

/-- When a body ends, its frame has all its names, and none of them is open. -/
theorem Tracks.not_declared (h : Tracks (names :: bodies) (frame :: frames) (.exit :: rest))
    {u : String × Position} (hu : u ∈ frame.unresolved) : ¬ names.contains u.1 := by
  intro hn
  have := (h.agree.1 u.1).1 (List.contains_iff_mem.1 hn)
  simp [declares, h.tidy.1 u hu frame (by simp)] at this

/-- The open uses of a body that ends stay open where they move to. -/
theorem Tracks.survivors_exit
    (h : Tracks (names :: bodies) (frame :: next :: frames) (.exit :: rest)) :
    Represents (survivors bodies (next.absorb frame :: frames))
      (survivors (names :: bodies) (frame :: next :: frames)) := by
  cases bodies with
  | nil => exact h.agree.2.elim
  | cons outer bodies =>
    have hr := (Frame.absorb_represents next frame).filter
      (fun n => !declaredIn (outer :: bodies) n)
    refine (hr.append (.refl (survivors bodies frames))).trans (.of_mem_iff ?_)
    intro u
    have hin : u ∈ frame.unresolved → declaredIn (names :: outer :: bodies) u.1 =
        declaredIn (outer :: bodies) u.1 := by
      intro hu
      rw [declaredIn_cons, Bool.eq_false_iff.2 (h.not_declared hu), Bool.false_or]
    simp only [survivors, List.mem_append, List.mem_filter]
    constructor
    · rintro (⟨hu | hu, hd⟩ | hu)
      · exact Or.inr (Or.inl ⟨hu, hd⟩)
      · exact Or.inl ⟨hu, by rw [hin hu]; exact hd⟩
      · exact Or.inr (Or.inr hu)
    · rintro (⟨hu, hd⟩ | ⟨hu, hd⟩ | hu)
      · exact Or.inl ⟨Or.inr hu, by rw [← hin hu]; exact hd⟩
      · exact Or.inl ⟨Or.inl hu, hd⟩
      · exact Or.inr hu

/-- A use that is recorded stays open exactly if no body has its name. -/
theorem survivors_record (h : bodies ≠ []) :
    Represents (survivors bodies (frame.record name pos :: frames))
      (survivors bodies (frame :: frames) ++
        if declaredIn bodies name then [] else [(name, pos)]) := by
  obtain ⟨names, bodies, rfl⟩ := List.exists_cons_of_ne_nil h
  have hr := (Frame.record_represents frame name pos).filter
    (fun n => !declaredIn (names :: bodies) n)
  refine (hr.append (.refl (survivors bodies frames))).trans (.of_mem_iff ?_)
  intro u
  by_cases hd : declaredIn (names :: bodies) name = true
  · simp [survivors, List.filter_append, hd]
  · simp only [survivors, List.filter_append, hd, List.mem_append, List.filter_cons,
      List.filter_nil, Bool.not_false, ite_true, ite_false, Bool.false_eq_true]
    exact or_right_comm

/-- A use is taken. It stays open if no body has its name. -/
theorem Tracks.use (h : Tracks bodies (frame :: frames) (.use name pos :: rest)) :
    ∃ frame', Scope.use ⟨frame :: frames⟩ name pos = (.ok (), ⟨frame' :: frames⟩) ∧
      Tracks bodies (frame' :: frames) rest ∧
      Represents (survivors bodies (frame' :: frames) ++ unresolved bodies rest)
        (survivors bodies (frame :: frames) ++ unresolved bodies (.use name pos :: rest)) := by
  have hrest : Tracks bodies (frame :: frames) rest := ⟨h.agree, h.accept, h.tidy, h.free⟩
  by_cases hb : Scope.isBound ⟨frame :: frames⟩ name
  · have hd : declaredIn bodies name := h.agree.declaredIn_of_bound hb
    refine ⟨frame, by simp [Scope.use, hb], hrest, ?_⟩
    simpa [unresolved, hd] using .refl _
  · have hn : ∀ f ∈ frame :: frames, f.kindOf? name = none := by
      simpa [Scope.isBound] using hb
    refine ⟨frame.record name pos, by simp [Scope.use, hb], hrest.record hn pos, ?_⟩
    refine ((survivors_record h.bodies_ne_nil).append (.refl _)).trans (.of_mem_iff fun u => ?_)
    by_cases hd : declaredIn bodies name = true <;> simp [unresolved, hd]

/-- What is open in the outermost body when it ends is what stays unresolved. -/
theorem Tracks.represents_last (h : Tracks bodies [frame] [.exit]) :
    Represents frame.unresolved (survivors bodies [frame] ++ unresolved bodies [.exit]) := by
  obtain ⟨names, bodies, rfl⟩ := List.exists_cons_of_ne_nil h.bodies_ne_nil
  cases bodies with
  | nil =>
    refine .of_mem_iff fun u => ?_
    have hin := fun hu => h.not_declared (u := u) hu
    simpa [survivors, unresolved, declaredIn] using hin
  | cons => exact h.agree.2.elim

/-- A call is the end of the outermost body, or it is taken and changes nothing in what stays
unresolved. -/
theorem Tracks.step {call : Call} (h : Tracks bodies (frame :: frames) (call :: rest))
    (hc : closes (frames.length + 1) (call :: rest)) :
    (call = .exit ∧ frames = [] ∧ rest = []) ∨
      ∃ bodies' frame' frames', call.apply ⟨frame :: frames⟩ = (.ok (), ⟨frame' :: frames'⟩) ∧
        Tracks bodies' (frame' :: frames') rest ∧ closes (frames'.length + 1) rest ∧
        Represents (survivors bodies' (frame' :: frames') ++ unresolved bodies' rest)
          (survivors bodies (frame :: frames) ++ unresolved bodies (call :: rest)) := by
  obtain ⟨names, bodies, rfl⟩ := List.exists_cons_of_ne_nil h.bodies_ne_nil
  cases call with
  | enter =>
    exact Or.inr ⟨_, _, _, rfl, h.enter, hc,
      by simpa [survivors, unresolved, Frame.empty] using .refl _⟩
  | declare name kind pos =>
    obtain ⟨joined, hd, ht⟩ := h.declare
    have hn : name ∈ names := (h.agree.1 name).2 (Or.inr (by simp [declares]))
    refine Or.inr ⟨_, _, _, hd, ht, hc, ?_⟩
    rw [survivors_bind hn]
    exact .refl _
  | use name pos =>
    obtain ⟨frame', hu, ht, hr⟩ := h.use
    exact Or.inr ⟨_, _, _, hu, ht, hc, hr⟩
  | exit =>
    cases frames with
    | nil => exact Or.inl ⟨rfl, rfl, by simpa [closes] using hc⟩
    | cons next frames =>
      exact Or.inr ⟨_, _, _, rfl, h.exit, hc, h.survivors_exit.append (.refl _)⟩

/-- No call before the end of the outermost body is refused, and there the open uses stand for
those that two passes leave unresolved. -/
theorem Tracks.run_until_exit (h : Tracks bodies (frame :: frames) rest)
    (hc : closes (frames.length + 1) rest) :
    ∃ calls last, rest = calls ++ [.exit] ∧ run ⟨frame :: frames⟩ calls = (.ok (), ⟨[last]⟩) ∧
      Represents last.unresolved
        (survivors bodies (frame :: frames) ++ unresolved bodies rest) := by
  induction rest generalizing bodies frame frames with
  | nil => simp [closes] at hc
  | cons call rest ih =>
    rcases h.step hc with ⟨rfl, rfl, rfl⟩ | ⟨bodies', frame', frames', ha, ht, hc', hr⟩
    · exact ⟨[], frame, rfl, rfl, h.represents_last⟩
    · obtain ⟨calls, last, rfl, hrun, hl⟩ := ih ht hc'
      exact ⟨call :: calls, last, rfl, by rw [run_cons_ok ha, hrun], hl.trans hr⟩

/-- Calls that are not refused declare nothing twice, in the open bodies and in new ones. -/
theorem accept_of_run {calls : List Call} {t : Scope} (h : run ⟨frames⟩ calls = (.ok (), t)) :
    Accept (fun depth => declares depth calls) frames ∧ conflictFree calls := by
  induction calls generalizing frames with
  | nil => exact ⟨accept_nil frames, rfl⟩
  | cons call rest ih =>
    obtain ⟨⟨frames'⟩, hcall, hrest⟩ := run_cons_eq_ok.1 h
    obtain ⟨haccept, hfree⟩ := ih hrest
    cases call with
    | enter =>
      cases hcall
      exact ⟨haccept.2, Bool.and_eq_true_iff.2 ⟨joinable_empty_iff.1 haccept.1, hfree⟩⟩
    | declare name kind pos =>
      cases frames with
      | nil => cases hcall
      | cons frame frames =>
        rcases declare_cases frame frames name kind pos with ⟨joined, hd, hj⟩ | ⟨e, hd, -⟩
        · cases hd.symm.trans hcall
          exact ⟨(accept_declare_iff hj).2 haccept, hfree⟩
        · cases hd.symm.trans hcall
    | use name pos =>
      cases frames with
      | nil => cases hcall
      | cons frame frames =>
        simp only [Call.apply, Scope.use] at hcall
        split at hcall <;> cases hcall
        · exact ⟨haccept, hfree⟩
        · exact ⟨accept_record_iff.1 haccept, hfree⟩
    | exit =>
      match frames with
      | [] => cases hcall
      | [frame] => exact ⟨accept_exit frame rest, hfree⟩
      | frame :: next :: frames =>
        cases hcall
        exact ⟨accept_exit_iff.2 haccept, hfree⟩

end

/-- What the end of the outermost body says, by the uses that are left unresolved. -/
def Reports (uses : List (String × Position)) (said : Except ScopeError Unit) : Prop :=
  said = .ok () ∧ uses = [] ∨
    ∃ u ∈ uses, said = .error (.diagnostic ⟨.undeclaredPrivate u.1, u.2⟩) ∧
      ∀ v ∈ uses, ¬ v.2.lt u.2

theorem exit_reports {frame : Frame} {uses : List (String × Position)}
    (h : Represents frame.unresolved uses) :
    ∃ said, Scope.exit ⟨[frame]⟩ = (said, .empty) ∧ Reports uses said := by
  rcases frame.firstOpen?_cases with ⟨hf, he⟩ | ⟨u, hu, hf, hl⟩
  · refine ⟨.ok (), by simp [Scope.exit, hf], Or.inl ⟨rfl, ?_⟩⟩
    rw [List.eq_nil_iff_forall_not_mem]
    intro x hx
    obtain ⟨y, hy, -⟩ := h.2 x hx
    simp [he] at hy
  · refine ⟨_, by simp only [Scope.exit, hf], Or.inr ⟨u, h.1 hu, rfl, ?_⟩⟩
    intro v hv
    obtain ⟨y, hy, -, hp⟩ := h.2 v hv
    exact Position.not_lt_trans (hl y hy) hp

theorem tracks_initial {rest : List Call} (h : conflictFree (.enter :: rest)) :
    Tracks [] [] (.enter :: rest) :=
  ⟨trivial, trivial, trivial, h⟩

/-- The outermost body up to its end, and what its end says. -/
theorem run_oneClass {calls : List Call} (one : isOneClass calls) (free : conflictFree calls) :
    ∃ before last said, calls = before ++ [.exit] ∧ run .empty before = (.ok (), ⟨[last]⟩) ∧
      Scope.exit ⟨[last]⟩ = (said, .empty) ∧ Reports (unresolved [] calls) said := by
  match calls, one with
  | .enter :: rest, one =>
    obtain ⟨before, last, rfl, hrun, hr⟩ :=
      (tracks_initial free).enter.run_until_exit one
    obtain ⟨said, he, hs⟩ := exit_reports hr
    exact ⟨.enter :: before, last, said, rfl, by rw [run_cons_ok rfl]; exact hrun, he,
      by simpa [survivors, Frame.empty, unresolved] using hs⟩

/-! The same of a trace, in which every call has its entry. -/

theorem step_run (s : Scope) (call : Call) : call.step.run s = .ofAttempt [] (call.apply s) := by
  cases call <;> simp [Call.step, Call.apply, Step.run, Outcome.ofAttempt]

theorem trace_append_of_run {s t : Scope} {xs : List Call} (h : run s xs = (.ok (), t))
    (ys : List Call) :
    ∃ entries, trace s ((xs ++ ys).map Call.step) = entries ++ trace t (ys.map Call.step) ∧
      entries.length = xs.length ∧ ∀ e ∈ entries, e.answer = .ok := by
  induction xs generalizing s with
  | nil =>
    simp only [run, Prod.mk.injEq, true_and] at h
    exact ⟨[], by simp [h], rfl, by simp⟩
  | cons call xs ih =>
    obtain ⟨u, hu, hr⟩ := run_cons_eq_ok.1 h
    obtain ⟨entries, ht, hl, ho⟩ := ih hr
    refine ⟨⟨.ok, u⟩ :: entries, ?_, by simp [hl], by simpa using ho⟩
    simp [trace, step_run, hu, Outcome.ofAttempt, ← ht]

/-- The scope says in one pass what a resolver says in two. In a sequence of calls that opens and
closes one outermost class body and in which no declaration is in conflict, every call but the last
succeeds; the last one fails if and only if a use is unresolved, it then reports an unresolved use
with the least position of all, and no body is left open. -/
theorem trace_eq_two_passes (calls : List Call) (one : isOneClass calls)
    (free : conflictFree calls) :
    ∃ entries last, trace .empty (calls.map Call.step) = entries ++ [last] ∧
      entries.length + 1 = calls.length ∧ (∀ e ∈ entries, e.answer = .ok) ∧
      last.scope = .empty ∧
      (last.answer = .ok ∧ unresolved [] calls = [] ∨
        ∃ u ∈ unresolved [] calls,
          last.answer = .error (.diagnostic ⟨.undeclaredPrivate u.1, u.2⟩) ∧
          ∀ v ∈ unresolved [] calls, ¬ v.2.lt u.2) := by
  obtain ⟨before, frame, said, hcalls, hrun, hexit, hsaid⟩ := run_oneClass one free
  obtain ⟨entries, ht, hl, ho⟩ := trace_append_of_run hrun [.exit]
  have hlast : ∀ o, Outcome.ofAttempt [] (said, .empty) = o →
      trace .empty (calls.map Call.step) = entries ++ [⟨o.answer, o.scope⟩] := by
    rintro o rfl
    rw [hcalls, ht]
    simp [trace, step_run, Call.apply, hexit]
    cases said <;> rfl
  refine ⟨entries, _, hlast _ rfl, by simp [hcalls, hl], ho, ?_, ?_⟩
  · cases said <;> rfl
  · rcases hsaid with ⟨rfl, hu⟩ | ⟨u, hu, rfl, hv⟩
    · exact Or.inl ⟨rfl, hu⟩
    · exact Or.inr ⟨u, hu, rfl, hv⟩

/-- An inner body uses `a`, which the outer one declares behind it as getter and setter, and `c`,
which nothing declares; the outer body uses `c` too, at a lesser position. -/
def sharedNames : List Call :=
  [.enter, .use "a" ⟨1, 4⟩, .use "c" ⟨1, 2⟩, .enter, .use "b" ⟨2, 1⟩, .use "c" ⟨3, 1⟩,
   .declare "b" .field ⟨3, 5⟩, .use "a" ⟨0, 7⟩, .exit, .declare "a" .get ⟨4, 1⟩,
   .declare "a" .set ⟨5, 1⟩, .exit]

theorem trace_sharedNames : isOneClass sharedNames ∧ conflictFree sharedNames ∧
    unresolved [] sharedNames = [("c", ⟨1, 2⟩), ("c", ⟨3, 1⟩)] ∧
    ∃ entries last, trace .empty (sharedNames.map Call.step) = entries ++ [last] ∧
      last.scope = .empty ∧
      ∃ u ∈ unresolved [] sharedNames,
        last.answer = .error (.diagnostic ⟨.undeclaredPrivate u.1, u.2⟩) ∧
        ∀ v ∈ unresolved [] sharedNames, ¬ v.2.lt u.2 := by
  have one : isOneClass sharedNames := by decide
  have free : conflictFree sharedNames := by decide
  have open_ : unresolved [] sharedNames = [("c", ⟨1, 2⟩), ("c", ⟨3, 1⟩)] := by decide
  obtain ⟨entries, last, ht, -, -, hs, h⟩ := trace_eq_two_passes sharedNames one free
  refine ⟨one, free, open_, entries, last, ht, hs, ?_⟩
  rcases h with ⟨-, h⟩ | h
  · simp [open_] at h
  · exact h

end JsClass.Scope
