import JsClass.Analysis
import JsClass.CommandLine.Run
import JsClass.Proofs.FailureReports
import JsClass.Proofs.Likeness.Alignment

/-!
What counts as an error. The command fails on a problem that ends reading, and shows the problems
that were recorded as warnings. An editor is told of the same problems, but it goes by the cause
alone, and takes a reserved word for an error although reading went on.
-/
namespace JsClass

open CommandLine

variable {s : TokenStream} {options : Options} {uri source : String}

/-- The state that a run ends in. -/
def Reply.state {α : Type} : Reply α → State
  | .ok _ s | .error _ s => s

/-- The problems recorded while a text is read, also where reading ends early. -/
def recorded (options : Options) (source : String) : List Diagnostic :=
  match tokenize .withPrivate source with
  | .ok s => (s.statements .withPrivate options).state.reported
  | .error _ => []

def Cause.isReservedWord : Cause → Bool
  | .reservedWord _ => true
  | _ => false

theorem Cause.severity_of_soft {k : Cause} (h : k.isSoft = true) :
    k.severity = .warning ↔ k.isReservedWord = false := by
  cases k <;> simp_all [Cause.isSoft, Cause.severity, Cause.isReservedWord]

theorem Cause.severity_of_fatal {k : Cause} (h : k.isSoft = false) : k.severity = .error := by
  cases k <;> simp_all [Cause.isSoft, Cause.severity]

theorem Severity.ne_warning {x : Severity} : x = .error ↔ x ≠ .warning := by
  cases x <;> simp

/-! Problems of a run. -/

theorem TokenStream.statements_soft (s : TokenStream) (d : Dialect) (options : Options) :
    ∀ x ∈ (s.statements d options).state.reported, x.cause.isSoft = true := by
  have hrun := Alignment.statements_inside s d options
  generalize s.statements d options = r at hrun
  cases hrun with
  | ok _ hs => exact fun x hx => (List.forall₂_same.1 hs.reported x hx).soft
  | error _ hs => exact fun x hx => (List.forall₂_same.1 hs.reported x hx).soft

theorem TokenStream.statements_fatal {d : Dialect} {x : Diagnostic} {t : State}
    (h : s.statements d options = .error (.rejected x) t) : x.cause.isSoft = false := by
  have hrun := Alignment.statements_inside s d options
  rw [h] at hrun
  cases hrun with
  | error hfault _ =>
    cases hfault with
    | rejected hx => exact hx.fatal

theorem recorded_soft (options : Options) (source : String) :
    ∀ x ∈ recorded options source, x.cause.isSoft = true := by
  unfold recorded
  split
  · exact TokenStream.statements_soft _ _ _
  · exact fun _ h => absurd h List.not_mem_nil

/-! The two views of one run. -/

/-- How the command ends, next to what an editor is told. -/
structure Agree (options : Options) (source : String) (path : String) (analysis : Analysis)
    (outcome : Outcome) : Prop where
  /-- What ends reading is an error, and comes before what was recorded. -/
  findings : ∃ fatal : List Finding, fatal.length = outcome.exit ∧
    (∀ f ∈ fatal, f.severity = .error) ∧
    analysis.findings = fatal ++ (recorded options source).map (·.finding)
  /-- Reading ends early, or what was recorded is shown as warnings. -/
  shown : outcome.exit = 1 ∨ outcome.exit = 0 ∧ outcome.stderr =
    lines ((recorded options source).map (diagnosticExcerpt "warning" (baseName path) source))

/-- An analysis that is given goes with a run of the command that ends. -/
theorem onSource_agrees {i : Invocation} (htokens : i.emitTokens = false)
    (htree : i.emitTree = false) (path : String) {analysis : Analysis}
    (ha : Analysis.ofSource options uri source = .ok analysis) :
    ∃ outcome, onSource i options path source = .ok outcome ∧
      Agree options source path analysis outcome := by
  unfold Analysis.ofSource at ha
  unfold onSource
  cases hs : tokenize .withPrivate source with
  | error failure =>
    have hrecorded : recorded options source = [] := by rw [recorded, hs]
    rw [hs] at ha
    cases failure with
    | lexical cause pos =>
      cases ha
      refine ⟨_, rfl, ⟨[.ofPosition pos (.ofString cause.message) .error], rfl, ?_, ?_⟩, Or.inl rfl⟩
      · simp [Finding.ofPosition]
      · rw [hrecorded]
        rfl
    | rejected | unreadable | overflow | noClass | exhausted => cases ha
  | ok s =>
    have hrecorded :
        recorded options source = (s.statements .withPrivate options).state.reported := by
      rw [recorded, hs]
    rw [hs] at ha
    simp only [Analysis.ofStream] at ha
    simp only [htokens, Bool.false_eq_true, if_false, TokenStream.parse]
    cases hrun : s.statements .withPrivate options with
    | ok body t =>
      rw [hrun] at ha hrecorded
      cases ha
      simp only [report, htree, Bool.false_eq_true, if_false]
      refine ⟨_, rfl, ⟨[], rfl, by simp, ?_⟩, Or.inr ⟨rfl, ?_⟩⟩
      · rw [hrecorded]
        rfl
      · rw [hrecorded]
        rfl
    | error fault t =>
      rw [hrun] at ha hrecorded
      cases fault with
      | rejected d =>
        cases ha
        refine ⟨_, rfl, ⟨[d.finding], rfl, ?_, ?_⟩, Or.inl rfl⟩
        · simp only [List.mem_singleton, forall_eq]
          exact Cause.severity_of_fatal (TokenStream.statements_fatal hrun)
        · rw [hrecorded]
          rfl
      | unreadableNumber | noClass | exhausted => cases ha

/-- A text without carriage returns is read as it is. -/
theorem normalizeLineEnds_eq {cs : List Char} (h : '\r' ∉ cs) : normalizeLineEnds cs = cs := by
  induction cs with
  | nil => rfl
  | cons c cs ih =>
    obtain ⟨hc, hcs⟩ := not_or.1 (List.mem_cons.not.1 h)
    have hc : c ≠ '\r' := fun h => hc h.symm
    rw [normalizeLineEnds, if_neg hc, ih hcs]
    rintro rest rfl
    exact absurd rfl hc

/-- The command on a file with a given text fails exactly if an editor is told of a problem that
ended reading. It shows as warnings what was recorded, and of that an editor takes all for
warnings but reserved words, which are errors to it. -/
theorem severity_differs_at_reserved_words {args : List String}
    {contents : String → Except FileError String} {i : Invocation} {path : String}
    {analysis : Analysis} (hargs : Invocation.ofArguments args = .ok i)
    (hinput : i.input = some path)
    (hplain : i.help = false ∧ i.emitTokens = false ∧ i.emitTree = false)
    (hoptions : i.options = .ok options) (hsource : contents path = .ok source)
    (hlines : '\r' ∉ source.toList) (ha : Analysis.ofSource options uri source = .ok analysis) :
    ∃ outcome, run args contents = .ok outcome ∧ Agree options source path analysis outcome ∧
      ((∃ f ∈ analysis.findings, f.severity = .error) ↔
        outcome.exit = 1 ∨ ∃ d ∈ recorded options source, d.cause.isReservedWord) ∧
      ∀ d ∈ recorded options source,
        (d.finding.severity = .warning ↔ d.cause.isReservedWord = false) := by
  obtain ⟨hhelp, htokens, htree⟩ := hplain
  obtain ⟨outcome, hrun, hagree⟩ := onSource_agrees htokens htree path ha
  have hseverity : ∀ d ∈ recorded options source,
      (d.finding.severity = .warning ↔ d.cause.isReservedWord = false) := fun d hd =>
    Cause.severity_of_soft (recorded_soft options source d hd)
  refine ⟨outcome, ?_, hagree, ?_, hseverity⟩
  · simp only [run, hargs, hinput, hhelp, Bool.false_eq_true, if_false, onFile, hoptions, hsource,
      normalizeLineEnds_eq hlines, String.ofList_toList, hrun]
    rfl
  · obtain ⟨⟨fatal, hlength, hfatal, hfindings⟩, hshown⟩ := hagree
    rw [hfindings]
    constructor
    · rintro ⟨f, hf, herror⟩
      rcases List.mem_append.1 hf with hf | hf
      · have hpos := List.length_pos_of_mem hf
        exact Or.inl (hshown.resolve_right fun h => by omega)
      · obtain ⟨d, hd, rfl⟩ := List.mem_map.1 hf
        refine Or.inr ⟨d, hd, ?_⟩
        simpa [Severity.ne_warning, hseverity d hd] using herror
    · rintro (hexit | ⟨d, hd, hreserved⟩)
      · obtain ⟨f, hf⟩ := List.exists_mem_of_length_pos (l := fatal) (by omega)
        exact ⟨f, List.mem_append_left _ hf, hfatal f hf⟩
      · refine ⟨d.finding, List.mem_append_right _ (List.mem_map_of_mem hd), ?_⟩
        simp [Severity.ne_warning, hseverity d hd, hreserved]

/-- A getter with a parameter, and a parameter whose name is reserved in a class. -/
def accessorText : String := "class A { get x(a) {} m(public) {} }"

theorem accessorText_severities : ∃ analysis outcome,
    Analysis.ofSource .default "a.js" accessorText = .ok analysis ∧
    run ["a.js"] (fun _ => .ok accessorText) = .ok outcome ∧
    Agree .default accessorText "a.js" analysis outcome ∧
    ((∃ f ∈ analysis.findings, f.severity = .error) ↔
      outcome.exit = 1 ∨ ∃ d ∈ recorded .default accessorText, d.cause.isReservedWord) ∧
    ∀ d ∈ recorded .default accessorText,
      (d.finding.severity = .warning ↔ d.cause.isReservedWord = false) := by
  have hread : (Analysis.ofSource .default "a.js" accessorText).toOption.isSome = true := by
    decide +kernel
  cases ha : Analysis.ofSource .default "a.js" accessorText with
  | error failure => simp [ha, Except.toOption] at hread
  | ok analysis =>
    let i : Invocation := { Invocation.default with input := some "a.js" }
    obtain ⟨outcome, h⟩ := @severity_differs_at_reserved_words .default "a.js" accessorText ["a.js"]
      (fun _ => .ok accessorText) i "a.js" analysis rfl rfl ⟨rfl, rfl, rfl⟩ rfl rfl (by decide) ha
    exact ⟨analysis, outcome, rfl, h⟩

/-- The command ends well on a reserved word, which an editor is told is an error. -/
theorem reserved_word_splits_views :
    (run ["a.js"] fun _ => .ok "class A { m(public) {} }").toOption.map (·.exit) = some 0 ∧
    (Analysis.ofSource .default "a.js" "class A { m(public) {} }").toOption.map
      (·.findings.map (·.severity)) = some [.error] ∧
    (recorded .default "class A { m(public) {} }").map (·.cause) = [.reservedWord "public"] := by
  decide +kernel

end JsClass
