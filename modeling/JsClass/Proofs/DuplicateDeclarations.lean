import JsClass.Proofs.Scope.Histories

/-!
Duplicate declarations. A class body declares, uses names and has complete classes inside, in any
order. What those classes declare is their own; of the body's own declarations, the first one is
refused that does not go together with those of its name before it.
-/
namespace JsClass.Scope

/-- Whether all steps of a new class body are taken, none of them failing. -/
def Completes (inner : List Step) : Prop :=
  ∀ outer, (Step.runInner ⟨.empty :: outer⟩ inner).2.1 = none

/-- Steps that stay in one class body. Between its declarations and uses there are complete classes,
with classes of their own. Where `resumes` holds, a step that fails is followed by the next one;
otherwise the body ends there, so a class that calls enter and leave is complete only if no step in
it fails. -/
inductive Within : Bool → List Step → Prop
  | nil {resumes : Bool} : Within resumes []
  | declare {resumes : Bool} {steps : List Step} (name : String) (kind : ElementKind)
    (pos : Position) (behind : Within resumes steps) :
    Within resumes (.declare name kind pos :: steps)
  | use {resumes : Bool} {steps : List Step} (name : String) (pos : Position)
    (behind : Within resumes steps) : Within resumes (.use name pos :: steps)
  | isBound {resumes : Bool} {steps : List Step} (name : String) (behind : Within resumes steps) :
    Within resumes (.isBound name :: steps)
  | body {resumes : Bool} {inner steps : List Step} (inside : Within false inner)
    (behind : Within resumes steps) : Within resumes (.body inner :: steps)
  | called {resumes : Bool} {inner steps : List Step} (inside : Within resumes inner)
    (completes : resumes = false → Completes inner) (behind : Within resumes steps) :
    Within resumes (.enter :: (inner ++ .exit :: steps))

/-- The call that a step makes where it stands. -/
def Step.call? : Step → Option Call
  | .enter => some .enter
  | .exit => some .exit
  | .declare name kind pos => some (.declare name kind pos)
  | .use name pos => some (.use name pos)
  | .isBound _ | .body _ => none

/-- What the class body declares in which the steps begin. -/
def ownDeclarations (steps : List Step) : List (String × ElementKind) :=
  declares 0 (steps.filterMap Step.call?)

variable {resumes : Bool} {steps more inner : List Step} {frame : Frame} {outer : List Frame}

/-! The declarations of the body. -/

theorem own_declare (name : String) (kind : ElementKind) (pos : Position) (steps : List Step) :
    ownDeclarations (.declare name kind pos :: steps) =
      [(name, kind)] ++ ownDeclarations steps := rfl

namespace Within

theorem append (h : Within resumes steps) (h' : Within resumes more) :
    Within resumes (steps ++ more) := by
  induction h with
  | nil => exact h'
  | declare name kind pos _ ih => exact .declare name kind pos (ih h')
  | use name pos _ ih => exact .use name pos (ih h')
  | isBound name _ ih => exact .isBound name (ih h')
  | body inside _ _ ih => exact .body inside (ih h')
  | called inside completes _ _ ih =>
    rw [List.cons_append, List.append_assoc, List.cons_append]
    exact .called inside completes (ih h')

/-- What is declared inside of a body is not declared further out. -/
theorem declares_succ (h : Within resumes steps) (depth : Nat) (rest : List Call) :
    declares (depth + 1) (steps.filterMap Step.call? ++ rest) = declares (depth + 1) rest := by
  induction h generalizing depth rest with
  | nil => rfl
  | declare _ _ _ _ ih | use _ _ _ ih | isBound _ _ ih => exact ih depth rest
  | body _ _ _ ih => exact ih depth rest
  | @called _ inner steps _ _ _ hinside hbehind =>
    have := hinside (depth + 1) (.exit :: (steps.filterMap Step.call? ++ rest))
    simp only [List.filterMap_cons, Step.call?, List.filterMap_append, List.cons_append,
      List.append_assoc, declares]
    rw [this]
    exact hbehind depth rest

theorem declares_called (h : Within resumes inner) (rest : List Call) :
    declares 0 ((Step.enter :: (inner ++ .exit :: steps)).filterMap Step.call? ++ rest) =
      declares 0 (steps.filterMap Step.call? ++ rest) := by
  simpa [Step.call?, declares] using
    h.declares_succ 0 (.exit :: (steps.filterMap Step.call? ++ rest))

theorem own_called (h : Within resumes inner) :
    ownDeclarations (.enter :: (inner ++ .exit :: steps)) = ownDeclarations steps := by
  simpa [ownDeclarations] using h.declares_called []

theorem declares_zero (h : Within resumes steps) (rest : List Call) :
    declares 0 (steps.filterMap Step.call? ++ rest) = ownDeclarations steps ++ declares 0 rest := by
  induction h generalizing rest with
  | nil => rfl
  | declare name kind _ _ ih => exact congrArg _ (ih rest)
  | use _ _ _ ih | isBound _ _ ih => exact ih rest
  | body _ _ _ ih => exact ih rest
  | called hinner _ _ _ ih => rw [hinner.declares_called, hinner.own_called, ih]

theorem own_append (h : Within resumes steps) :
    ownDeclarations (steps ++ more) = ownDeclarations steps ++ ownDeclarations more := by
  rw [ownDeclarations, List.filterMap_append, h.declares_zero]
  rfl

end Within

/-! What a step leaves of the frames. -/

/-- A step after which the frames further out are as they were, and all names of the body stand for
what they stood for. -/
def Step.KeepsKinds (step : Step) : Prop :=
  ∀ frame outer, ∃ frame' : Frame, (step.run ⟨frame :: outer⟩).scope = ⟨frame' :: outer⟩ ∧
    ∀ name, frame'.kindOf? name = frame.kindOf? name

theorem Step.KeepsKinds.after {step : Step} (h : step.KeepsKinds) (frame : Frame)
    (outer : List Frame) : ∃ frame' : Frame,
      Scope.after ⟨frame :: outer⟩ [step] = ⟨frame' :: outer⟩ ∧
        ∀ name, frame'.kindOf? name = frame.kindOf? name := by
  simpa only [after_cons, after_nil] using h frame outer

theorem use_keepsKinds (name : String) (pos : Position) : (Step.use name pos).KeepsKinds := by
  intro frame outer
  by_cases hbound : isBound ⟨frame :: outer⟩ name
  · exact ⟨frame, by simp [Step.run, Outcome.ofAttempt, use, hbound], fun _ => rfl⟩
  · exact ⟨frame.record name pos, by simp [Step.run, Outcome.ofAttempt, use, hbound],
      fun n => frame.kindOf?_record name n pos⟩

theorem isBound_keepsKinds (name : String) : (Step.isBound name).KeepsKinds :=
  fun frame _ => ⟨frame, rfl, fun _ => rfl⟩

/-- A body whose steps leave its frame on top is closed or dropped, whether they succeed or not. -/
theorem body_keepsKinds
    (hinner : ∀ frame outer, ∃ error? frame',
      (Step.runInner ⟨frame :: outer⟩ inner).2 = (error?, ⟨frame' :: outer⟩)) :
    (Step.body inner).KeepsKinds := by
  intro frame outer
  obtain ⟨error?, frame', hstays⟩ := hinner .empty (frame :: outer)
  rcases hrun : Step.runInner (enter ⟨frame :: outer⟩) inner with ⟨entries, ended⟩
  obtain rfl : ended = (error?, ⟨frame' :: frame :: outer⟩) := by
    rw [← hstays]
    exact congrArg Prod.snd hrun.symm
  cases error? with
  | none => exact ⟨frame.absorb frame', by rw [Step.run, hrun]; rfl, frame.kindOf?_absorb frame'⟩
  | some e => exact ⟨frame, by rw [Step.run, hrun]; rfl, fun _ => rfl⟩

/-- A step after which the frame of its body is still on top. -/
def Step.Stays (step : Step) : Prop :=
  ∀ frame outer, ∃ frame', (step.run ⟨frame :: outer⟩).scope = ⟨frame' :: outer⟩

theorem Step.KeepsKinds.stays {step : Step} (h : step.KeepsKinds) : step.Stays :=
  fun frame outer => (h frame outer).imp fun _ => And.left

theorem declare_stays (name : String) (kind : ElementKind) (pos : Position) :
    (Step.declare name kind pos).Stays := by
  intro frame outer
  rcases declare_cases frame outer name kind pos with ⟨k, hk, -⟩ | ⟨e, he, -⟩
  · exact ⟨frame.bind name k, by rw [Step.run, hk]; rfl⟩
  · exact ⟨frame, by rw [Step.run, he]; rfl⟩

theorem after_cons_stays {step : Step} (hstep : step.Stays)
    (hsteps : ∀ frame outer, ∃ frame', after ⟨frame :: outer⟩ steps = ⟨frame' :: outer⟩)
    (frame : Frame) (outer : List Frame) :
    ∃ frame', after ⟨frame :: outer⟩ (step :: steps) = ⟨frame' :: outer⟩ := by
  obtain ⟨frame', hframe⟩ := hstep frame outer
  rw [after_cons, hframe]
  exact hsteps frame' outer

theorem after_called {inner' : Frame}
    (h : after ⟨.empty :: frame :: outer⟩ inner = ⟨inner' :: frame :: outer⟩) (steps : List Step) :
    after ⟨frame :: outer⟩ (.enter :: (inner ++ .exit :: steps)) =
      after ⟨frame.absorb inner' :: outer⟩ steps := by
  have henter : (Step.enter.run ⟨frame :: outer⟩).scope = ⟨.empty :: frame :: outer⟩ := rfl
  rw [after_cons, henter, after_append, h, after_cons]
  rfl

theorem runInner_cons_stays {step : Step} (hstep : step.Stays)
    (hsteps : ∀ frame outer, ∃ error? frame',
      (Step.runInner ⟨frame :: outer⟩ steps).2 = (error?, ⟨frame' :: outer⟩))
    (frame : Frame) (outer : List Frame) : ∃ error? frame',
      (Step.runInner ⟨frame :: outer⟩ (step :: steps)).2 = (error?, ⟨frame' :: outer⟩) := by
  obtain ⟨frame', hframe⟩ := hstep frame outer
  obtain ⟨error?, last, hrun⟩ := hsteps frame' outer
  rw [Step.runInner]
  dsimp only
  rw [hframe]
  split
  · exact ⟨_, frame', rfl⟩
  · exact ⟨error?, last, hrun⟩

theorem runInner_append {s : Scope} (h : (Step.runInner s steps).2.1 = none) :
    (Step.runInner s (steps ++ more)).2 =
      (Step.runInner (Step.runInner s steps).2.2 more).2 := by
  induction steps generalizing s with
  | nil => rfl
  | cons step steps ih =>
    rw [Step.runInner] at h
    rw [List.cons_append, Step.runInner, Step.runInner]
    dsimp only at h ⊢
    split at h
    · cases h
    · exact ih h

namespace Within

/-- Steps in a body leave its frame on top, also where they end early. -/
theorem runInner_stays (h : Within resumes steps) (hends : resumes = false) (frame : Frame)
    (outer : List Frame) : ∃ error? frame',
      (Step.runInner ⟨frame :: outer⟩ steps).2 = (error?, ⟨frame' :: outer⟩) := by
  induction h generalizing frame outer with
  | nil => exact ⟨_, frame, rfl⟩
  | declare name kind pos _ ih =>
    exact runInner_cons_stays (declare_stays name kind pos) (ih hends) frame outer
  | use name pos _ ih =>
    exact runInner_cons_stays (use_keepsKinds name pos).stays (ih hends) frame outer
  | isBound name _ ih =>
    exact runInner_cons_stays (isBound_keepsKinds name).stays (ih hends) frame outer
  | body _ _ hinside ih =>
    exact runInner_cons_stays (body_keepsKinds (hinside rfl)).stays (ih hends) frame outer
  | @called _ inner steps _ completes _ hinside ih =>
    obtain ⟨error?, inner', hinner⟩ := hinside hends .empty (frame :: outer)
    obtain ⟨error', last, hlast⟩ := ih hends (frame.absorb inner') outer
    refine ⟨error', last, ?_⟩
    calc (Step.runInner ⟨frame :: outer⟩ (.enter :: (inner ++ .exit :: steps))).2
        = (Step.runInner ⟨.empty :: frame :: outer⟩ (inner ++ .exit :: steps)).2 := by
          rw [Step.runInner]; rfl
      _ = (Step.runInner ⟨inner' :: frame :: outer⟩ (.exit :: steps)).2 := by
          rw [runInner_append (completes hends _), hinner]
      _ = (Step.runInner ⟨frame.absorb inner' :: outer⟩ steps).2 := by
          rw [Step.runInner]; rfl
      _ = (error', ⟨last :: outer⟩) := hlast

theorem body_keepsKinds (h : Within false inner) : (Step.body inner).KeepsKinds :=
  Scope.body_keepsKinds (h.runInner_stays rfl)

/-- All steps leave the frame of their body on top. -/
theorem stays (h : Within resumes steps) (frame : Frame) (outer : List Frame) :
    ∃ frame', after ⟨frame :: outer⟩ steps = ⟨frame' :: outer⟩ := by
  induction h generalizing frame outer with
  | nil => exact ⟨frame, rfl⟩
  | declare name kind pos _ ih =>
    exact after_cons_stays (declare_stays name kind pos) ih frame outer
  | use name pos _ ih => exact after_cons_stays (use_keepsKinds name pos).stays ih frame outer
  | isBound name _ ih => exact after_cons_stays (isBound_keepsKinds name).stays ih frame outer
  | body hinner _ _ ih => exact after_cons_stays hinner.body_keepsKinds.stays ih frame outer
  | called _ _ _ hinside ih =>
    obtain ⟨inner', hinner⟩ := hinside .empty (frame :: outer)
    rw [after_called hinner]
    exact ih (frame.absorb inner') outer

end Within

/-! Steps that declare nothing in their body. -/

/-- Steps behind which all names of the body stand for what they stood for before. -/
structure Quiet (xs : List Step) : Prop where
  within : ∀ {steps}, Within true steps → Within true (xs ++ steps)
  own : ∀ steps, ownDeclarations (xs ++ steps) = ownDeclarations steps
  keeps : ∀ frame outer, ∃ frame' : Frame, after ⟨frame :: outer⟩ xs = ⟨frame' :: outer⟩ ∧
    ∀ name, frame'.kindOf? name = frame.kindOf? name

namespace Within

/-- A complete class. -/
theorem quiet (h : Within true inner) : Quiet (.enter :: (inner ++ [.exit])) where
  within hsteps := by
    rw [List.cons_append, List.append_assoc]
    exact .called h (by simp) hsteps
  own steps := by
    rw [List.cons_append, List.append_assoc]
    exact h.own_called
  keeps frame outer := by
    obtain ⟨inner', hinner⟩ := h.stays .empty (frame :: outer)
    exact ⟨frame.absorb inner', after_called hinner [], frame.kindOf?_absorb inner'⟩

/-- Steps that stay in one body are declarations with quiet steps in between. -/
theorem induction {P : List Step → Prop} (h : Within true steps) (nil : P [])
    (declare : ∀ {steps} name kind pos, Within true steps → P steps →
      P (.declare name kind pos :: steps))
    (quiet : ∀ xs {steps}, Quiet xs → Within true steps → P steps → P (xs ++ steps)) : P steps := by
  generalize hresumes : true = resumes at h
  induction h with
  | nil => exact nil
  | declare name kind pos behind ih =>
    cases hresumes
    exact declare name kind pos behind (ih rfl)
  | use name pos behind ih =>
    cases hresumes
    exact quiet [_] ⟨.use name pos, fun _ => rfl, (use_keepsKinds name pos).after⟩ behind (ih rfl)
  | isBound name behind ih =>
    cases hresumes
    exact quiet [_] ⟨.isBound name, fun _ => rfl, (isBound_keepsKinds name).after⟩ behind (ih rfl)
  | body inside behind _ ih =>
    cases hresumes
    exact quiet [_] ⟨.body inside, fun _ => rfl, inside.body_keepsKinds.after⟩ behind (ih rfl)
  | called inside _ behind _ ih =>
    cases hresumes
    have hclass := quiet _ inside.quiet behind (ih rfl)
    rwa [List.cons_append, List.append_assoc] at hclass

end Within

/-! The names of the body. -/

variable {ds : List (String × ElementKind)} {name : String} {kind : ElementKind}

namespace Within

/-- As long as all declarations of the body go together, its frame holds them. -/
theorem holds (h : Within true steps) {frame : Frame} {ds : List (String × ElementKind)}
    (hframe : Holds frame ds) (hall : compatible (ds ++ ownDeclarations steps))
    (outer : List Frame) : ∃ frame', after ⟨frame :: outer⟩ steps = ⟨frame' :: outer⟩ ∧
      Holds frame' (ds ++ ownDeclarations steps) := by
  refine h.induction (P := fun steps => ∀ {frame ds}, Holds frame ds →
    compatible (ds ++ ownDeclarations steps) → ∃ frame', after ⟨frame :: outer⟩ steps =
      ⟨frame' :: outer⟩ ∧ Holds frame' (ds ++ ownDeclarations steps)) ?_ ?_ ?_ hframe hall
  · intro frame ds hframe _
    exact ⟨frame, rfl, by simpa [ownDeclarations, declares] using hframe⟩
  · intro steps name kind pos _ ih frame ds hframe hall
    rw [own_declare, ← List.append_assoc] at hall ⊢
    have hsnoc := compatible_of_append hall
    obtain ⟨k, hk, hdeclare⟩ := declare_joins (hframe name)
      ((compatible_snoc (compatible_of_append hsnoc)).1 hsnoc) pos outer
    rw [after_cons, Step.run, hdeclare]
    exact ih (hframe.bind hk) hall
  · intro xs steps hquiet _ ih frame ds hframe hall
    obtain ⟨frame', hafter, hkinds⟩ := hquiet.keeps frame outer
    rw [hquiet.own] at hall ⊢
    rw [after_append, hafter]
    exact ih (fun name => (hkinds name).trans (hframe name)) hall

/-- Where the declarations of the body do not all go together, there is a first one that does not go
together with those before it. -/
theorem first_conflict (h : Within true steps) (hds : compatible ds)
    (hnot : ¬ compatible (ds ++ ownDeclarations steps)) :
    ∃ before name kind pos behind, steps = before ++ .declare name kind pos :: behind ∧
      Within true before ∧ compatible (ds ++ ownDeclarations before) ∧
      ¬ compatible (ds ++ ownDeclarations before ++ [(name, kind)]) := by
  refine h.induction (P := fun steps => ∀ {ds}, compatible ds →
    ¬ compatible (ds ++ ownDeclarations steps) → ∃ before name kind pos behind,
      steps = before ++ .declare name kind pos :: behind ∧ Within true before ∧
      compatible (ds ++ ownDeclarations before) ∧
      ¬ compatible (ds ++ ownDeclarations before ++ [(name, kind)])) ?_ ?_ ?_ hds hnot
  · intro ds hds hnot
    exact absurd (by simpa [ownDeclarations, declares] using hds) hnot
  · intro steps name kind pos _ ih ds hds hnot
    by_cases hsnoc : compatible (ds ++ [(name, kind)]) = true
    · rw [own_declare, ← List.append_assoc] at hnot
      obtain ⟨before, n, k, p, behind, rfl, hbefore, hall, hfirst⟩ := ih hsnoc hnot
      refine ⟨.declare name kind pos :: before, n, k, p, behind, rfl,
        .declare name kind pos hbefore, ?_, ?_⟩
      · rwa [own_declare, ← List.append_assoc]
      · rwa [own_declare, ← List.append_assoc]
    · exact ⟨[], name, kind, pos, steps, rfl, .nil, by simpa [ownDeclarations, declares] using hds,
        by simpa [ownDeclarations, declares] using hsnoc⟩
  · intro xs steps hquiet _ ih ds hds hnot
    rw [hquiet.own] at hnot
    obtain ⟨before, n, k, p, behind, rfl, hbefore, hall, hfirst⟩ := ih hds hnot
    refine ⟨xs ++ before, n, k, p, behind, by simp, hquiet.within hbefore, ?_, ?_⟩
    · rwa [hquiet.own]
    · rwa [hquiet.own]

end Within

/-! Declarations that are refused. -/

/-- No declaration of the body in which the steps begin is refused. -/
def NoneRefused (s : Scope) (steps : List Step) : Prop :=
  ∀ before name kind pos behind, steps = before ++ .declare name kind pos :: behind →
    Within true before → ((Step.declare name kind pos).run (after s before)).answer = .ok

variable {s : Scope} {before : List Step}

theorem enter_holds (h : Within true before) (hall : compatible (ownDeclarations before)) :
    ∃ frame, after s.enter before = ⟨frame :: s.frames⟩ ∧ Holds frame (ownDeclarations before) :=
  h.holds holds_empty hall s.frames

theorem noneRefused_of_compatible (hall : compatible (ownDeclarations steps)) :
    NoneRefused s.enter steps := by
  rintro before name kind pos behind rfl hbefore
  rw [hbefore.own_append, own_declare, ← List.append_assoc] at hall
  have hsnoc := compatible_of_append hall
  have hcompatible := compatible_of_append hsnoc
  obtain ⟨frame, hafter, hframe⟩ := enter_holds (s := s) hbefore hcompatible
  obtain ⟨k, -, hdeclare⟩ := declare_joins (hframe name)
    ((compatible_snoc hcompatible).1 hsnoc) pos s.frames
  rw [hafter, Step.run, hdeclare]
  rfl

theorem declare_refused (h : Within true before) (hall : compatible (ownDeclarations before))
    (hnot : ¬ canShare (kindsOf name (ownDeclarations before) ++ [kind])) (pos : Position) :
    (Step.declare name kind pos).run (after s.enter before) =
      ⟨[], .error (.diagnostic ⟨.duplicatePrivate name, pos⟩), after s.enter before⟩ := by
  obtain ⟨frame, hafter, hframe⟩ := enter_holds (s := s) h hall
  have hrefused := declare_refuses (hframe name) (compatible_iff.1 hall name) hnot pos
    s.frames
  rw [hafter, Step.run, hrefused]
  rfl

/-- Duplicates are found exactly. In a class body that has uses and complete classes between its
declarations, none of these is refused if and only if no name is declared twice, a getter and a
setter apart; then the name stands for its only kind, or for both. Otherwise the first declaration
that does not go together with those of its name is refused at its own position, and leaves the
scope as it is. -/
theorem duplicates_found_exactly (s : Scope) (steps : List Step) (h : Within true steps) :
    (NoneRefused s.enter steps ↔ ∀ name, canShare (kindsOf name (ownDeclarations steps))) ∧
    ((∀ name, canShare (kindsOf name (ownDeclarations steps))) →
      ∃ frame, after s.enter steps = ⟨frame :: s.frames⟩ ∧
        ∀ name, frame.kindOf? name = joined (kindsOf name (ownDeclarations steps))) ∧
    ((¬ ∀ name, canShare (kindsOf name (ownDeclarations steps))) →
      ∃ before name kind pos behind, steps = before ++ .declare name kind pos :: behind ∧
        Within true before ∧ NoneRefused s.enter before ∧
        (∀ other, canShare (kindsOf other (ownDeclarations before))) ∧
        ¬ canShare (kindsOf name (ownDeclarations before) ++ [kind]) ∧
        (Step.declare name kind pos).run (after s.enter before) =
          ⟨[], .error (.diagnostic ⟨.duplicatePrivate name, pos⟩), after s.enter before⟩) := by
  rw [← compatible_iff]
  have hconflict (hnot : ¬ compatible (ownDeclarations steps)) :
      ∃ before name kind pos behind, steps = before ++ .declare name kind pos :: behind ∧
        Within true before ∧ NoneRefused s.enter before ∧
        (∀ other, canShare (kindsOf other (ownDeclarations before))) ∧
        ¬ canShare (kindsOf name (ownDeclarations before) ++ [kind]) ∧
        (Step.declare name kind pos).run (after s.enter before) =
          ⟨[], .error (.diagnostic ⟨.duplicatePrivate name, pos⟩), after s.enter before⟩ := by
    have hnil : compatible [] := rfl
    obtain ⟨before, name, kind, pos, behind, hsteps, hbefore, hall, hfirst⟩ :=
      h.first_conflict hnil hnot
    rw [List.nil_append] at hall hfirst
    have hkinds : ¬ canShare (kindsOf name (ownDeclarations before) ++ [kind]) :=
      fun hkinds => hfirst ((compatible_snoc hall).2 hkinds)
    exact ⟨before, name, kind, pos, behind, hsteps, hbefore, noneRefused_of_compatible hall,
      compatible_iff.1 hall, hkinds, declare_refused hbefore hall hkinds pos⟩
  refine ⟨⟨fun hnone => ?_, noneRefused_of_compatible⟩, enter_holds h, hconflict⟩
  by_cases hall : compatible (ownDeclarations steps) = true
  · exact hall
  obtain ⟨before, name, kind, pos, behind, hsteps, hbefore, -, -, -, hrefused⟩ := hconflict hall
  have hok := hnone before name kind pos behind hsteps hbefore
  rw [hrefused] at hok
  cases hok

/-- A body that declares a setter and a getter, with classes between them that declare the name
too; two of these declare it twice, and one of them ends with that. -/
def accessorSteps : List Step :=
  [.use "a" ⟨1, 1⟩, .declare "a" .set ⟨1, 5⟩, .enter, .declare "a" .field ⟨2, 1⟩,
   .declare "a" .field ⟨2, 5⟩, .use "b" ⟨2, 9⟩, .exit,
   .body [.declare "a" .get ⟨3, 1⟩, .enter, .declare "a" .field ⟨3, 5⟩, .exit,
    .declare "a" .get ⟨3, 9⟩, .use "b" ⟨3, 13⟩],
   .declare "b" .both ⟨4, 1⟩, .declare "a" .get ⟨4, 5⟩]

theorem accessorSteps_then_method : Within true accessorSteps ∧
    (∃ frame, after Scope.empty.enter accessorSteps = ⟨[frame]⟩ ∧
      frame.kindOf? "a" = some .both ∧ frame.kindOf? "b" = some .both) ∧
    NoneRefused Scope.empty.enter accessorSteps ∧
    ¬ NoneRefused Scope.empty.enter (accessorSteps ++ [.declare "a" .method ⟨5, 1⟩]) := by
  have hbody : Within false [.declare "a" .get ⟨3, 1⟩, .enter, .declare "a" .field ⟨3, 5⟩, .exit,
      .declare "a" .get ⟨3, 9⟩, .use "b" ⟨3, 13⟩] :=
    .declare _ _ _ (.called (.declare _ _ _ .nil) (fun _ _ => rfl)
      (.declare _ _ _ (.use _ _ .nil)))
  have hwithin : Within true accessorSteps :=
    .use _ _ (.declare _ _ _ (.called (.declare _ _ _ (.declare _ _ _ (.use _ _ .nil))) (by simp)
      (.body hbody (.declare _ _ _ (.declare _ _ _ .nil)))))
  have hlast : Within true (accessorSteps ++ [.declare "a" .method ⟨5, 1⟩]) :=
    hwithin.append (.declare _ _ _ .nil)
  have hall : ∀ name, canShare (kindsOf name (ownDeclarations accessorSteps)) :=
    compatible_iff.1 (by decide)
  obtain ⟨hnone, hnames, -⟩ := duplicates_found_exactly .empty accessorSteps hwithin
  obtain ⟨hrefused, -, -⟩ := duplicates_found_exactly .empty _ hlast
  obtain ⟨frame, hafter, hframe⟩ := hnames hall
  refine ⟨hwithin, ⟨frame, hafter, ?_, ?_⟩, hnone.2 hall, fun h => ?_⟩
  · exact hframe "a"
  · exact hframe "b"
  · exact absurd (hrefused.1 h "a") (by decide)

end JsClass.Scope
