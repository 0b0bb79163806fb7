import JsClass.Proofs.Scope.Frames
import JsClass.Session

/-!
A session shows the editor what it keeps. After every request, whether its analysis failed or not,
the findings that were last published for a document are those of the analysis that the session
has of it; and this is the analysis of the last text that could be analysed, with the options of
that moment.
-/
namespace JsClass

variable {s t : Session} {uri text : String} {analysis : Analysis}
  {published more : List (String × List Finding)}

theorem Assoc.lookup_erase {β : Type} (table : Assoc β) (name other : String) :
    (table.erase name).lookup other = if other = name then none else table.lookup other := by
  induction table with
  | nil => simp [Assoc.erase]
  | cons entry table ih =>
    obtain ⟨k, v⟩ := entry
    unfold Assoc.erase at *
    by_cases hk : k = name
    · rw [List.filter_cons_of_neg (by simpa using hk), ih, lookup_cons, hk]
      by_cases ho : other = name
      · simp [ho]
      · simp [ho]
    · rw [List.filter_cons_of_pos (by simpa using hk), lookup_cons, lookup_cons, ih]
      by_cases ho : other = k
      · simp [ho, hk]
      · simp [ho]

/-! What was published. -/

/-- The findings that were last published for a document. -/
def lastPublished (uri : String) (published : List (String × List Finding)) :
    Option (List Finding) :=
  (published.filter (·.1 == uri)).getLast?.map Prod.snd

@[simp] theorem lastPublished_append_self (findings : List Finding) :
    lastPublished uri (published ++ [(uri, findings)]) = some findings := by
  simp [lastPublished]

theorem lastPublished_append_of_silent (h : ∀ entry ∈ more, entry.1 ≠ uri) :
    lastPublished uri (published ++ more) = lastPublished uri published := by
  have hnone : more.filter (·.1 == uri) = [] := by
    rw [List.filter_eq_nil_iff]
    intro entry hentry
    simpa using h entry hentry
  rw [lastPublished, List.filter_append, hnone, List.append_nil, lastPublished]

/-! What a request does. -/

namespace Request

/-- The document that a request is about. -/
def uri? : Request → Option String
  | .configure _ => none
  | .open_ uri _ | .change uri _ | .save uri | .close uri => some uri

/-- The document and the text that a request makes the session analyse. -/
def analysed? (before : Session) : Request → Option (String × String)
  | .open_ uri text | .change uri text => some (uri, text)
  | .save uri => some (uri, (before.texts.lookup uri).getD "")
  | .configure _ | .close _ => none

end Request

/-- No analysis of this document completes with the request. -/
def Session.Uncompleted (s : Session) (request : Request) (uri : String) : Prop :=
  ∀ text, request.analysed? s = some (uri, text) →
    ∃ failure, Analysis.ofSource s.options uri text = .error failure

/-- What a request means for one document: nothing, if it is about another one or its analysis
fails; the session takes over a new analysis; or it drops the one it has. -/
inductive Session.Effect (s : Session) (request : Request) (uri : String) (t : Session)
    (published : List (String × List Finding)) : Prop
  | untouched (uncompleted : s.Uncompleted request uri)
    (kept : t.analyses.lookup uri = s.analyses.lookup uri)
    (silent : ∀ entry ∈ published, entry.1 ≠ uri)
  | validated {text : String} {analysis : Analysis}
    (analysed : request.analysed? s = some (uri, text))
    (completed : Analysis.ofSource s.options uri text = .ok analysis)
    (kept : t.analyses.lookup uri = some analysis)
    (shown : published = [(uri, analysis.findings)])
  | closed (uncompleted : s.Uncompleted request uri) (dropped : t.analyses.lookup uri = none)
    (shown : published = [(uri, [])])

namespace Session

variable {request : Request}

theorem uncompleted_of_uri? (h : request.uri? ≠ some uri) : s.Uncompleted request uri := by
  intro text htext
  cases request <;> simp_all [Request.uri?, Request.analysed?]

/-- A request leaves the documents alone that it is not about. -/
theorem handle_frame (h : request.uri? ≠ some uri) :
    (s.handle request).1.analyses.lookup uri = s.analyses.lookup uri ∧
      ∀ entry ∈ (s.handle request).2.published, entry.1 ≠ uri := by
  have hvalidate (s : Session) (doc text : String) (hdoc : doc ≠ uri) :
      (s.validate doc text).1.analyses.lookup uri = s.analyses.lookup uri ∧
        ∀ entry ∈ (s.validate doc text).2.published, entry.1 ≠ uri := by
    unfold validate
    cases Analysis.ofSource s.options doc text with
    | error failure => simp
    | ok analysis => simp [hdoc, Ne.symm hdoc]
  cases request with
  | configure settings =>
    unfold handle configure
    cases settings with
    | none => simp [Response.silent]
    | some settings =>
      dsimp only
      cases Options.ofMapping settings with
      | ok options => simp [Response.silent]
      | error e => simp
  | open_ doc text => exact hvalidate _ doc text (by simpa [Request.uri?] using h)
  | change doc text => exact hvalidate _ doc text (by simpa [Request.uri?] using h)
  | save doc => exact hvalidate _ doc _ (by simpa [Request.uri?] using h)
  | close doc =>
    have hdoc : doc ≠ uri := by simpa [Request.uri?] using h
    simp [handle, close, Assoc.lookup_erase, hdoc, Ne.symm hdoc]

/-- Only the texts may have been updated before a text is analysed. -/
theorem validate_effect {texts : Assoc String} (h : request.analysed? s = some (uri, text)) :
    s.Effect request uri ({ s with texts }.validate uri text).1
      ({ s with texts }.validate uri text).2.published := by
  unfold validate
  dsimp only
  cases hanalysis : Analysis.ofSource s.options uri text with
  | error failure =>
    refine .untouched (fun other hother => ?_) rfl (by simp)
    rw [h] at hother
    cases hother
    exact ⟨failure, hanalysis⟩
  | ok analysis => exact .validated h hanalysis (by simp) rfl

theorem handle_effect (s : Session) (request : Request) (uri : String) :
    s.Effect request uri (s.handle request).1 (s.handle request).2.published := by
  by_cases huri : request.uri? = some uri
  · cases request with
    | configure settings => cases huri
    | open_ doc text =>
      cases huri
      exact validate_effect rfl
    | change doc text =>
      cases huri
      exact validate_effect rfl
    | save doc =>
      cases huri
      exact validate_effect rfl
    | close doc =>
      cases huri
      exact .closed (by simp [Uncompleted, Request.analysed?])
        (by simp [handle, close, Assoc.lookup_erase]) rfl
  · obtain ⟨hkept, hsilent⟩ := s.handle_frame huri
    exact .untouched (uncompleted_of_uri? huri) hkept hsilent

end Session

/-! Runs. -/

/-- A run of requests, each with the session that it comes to, the session behind them and all that
was published. The texts of documents are the editor's, and may be whatever they are when a request
comes. -/
inductive Session.Run : List (Session × Request) → Session → List (String × List Finding) → Prop
  | start (texts : Assoc String) : Run [] { initial with texts } []
  | step {steps : List (Session × Request)} {s : Session}
    {published : List (String × List Finding)} (run : Run steps s published) (texts : Assoc String)
    (request : Request) :
    Run (steps ++ [({ s with texts }, request)]) ({ s with texts }.handle request).1
      (published ++ ({ s with texts }.handle request).2.published)

/-- The analysis is that of the last text of a document whose analysis completed, with the options
that the session had when the request came. -/
def IsLastAnalysis (uri : String) (steps : List (Session × Request)) (analysis : Analysis) : Prop :=
  ∃ earlier before request later text, steps = earlier ++ (before, request) :: later ∧
    request.analysed? before = some (uri, text) ∧
    Analysis.ofSource before.options uri text = .ok analysis ∧
    ∀ x ∈ later, x.1.Uncompleted x.2 uri

/-- What the session keeps of a document is what it has shown of it. -/
structure Session.InStep (steps : List (Session × Request)) (s : Session)
    (published : List (String × List Finding)) (uri : String) : Prop where
  kept : ∀ analysis, s.analyses.lookup uri = some analysis →
    lastPublished uri published = some analysis.findings ∧ IsLastAnalysis uri steps analysis
  dropped : s.analyses.lookup uri = none →
    lastPublished uri published = none ∨ lastPublished uri published = some []

section

variable {request : Request} {steps : List (Session × Request)}

theorem IsLastAnalysis.append (h : IsLastAnalysis uri steps analysis)
    (hrequest : s.Uncompleted request uri) :
    IsLastAnalysis uri (steps ++ [(s, request)]) analysis := by
  obtain ⟨earlier, first, validation, later, text, rfl, hanalysed, hcompleted, hlater⟩ := h
  refine ⟨earlier, first, validation, later ++ [(s, request)], text, by simp, hanalysed,
    hcompleted, ?_⟩
  intro x hx
  rcases List.mem_append.1 hx with hx | hx
  · exact hlater x hx
  · rw [List.mem_singleton.1 hx]
    exact hrequest

namespace Session

/-- One request keeps each document in step, whatever it means for it. -/
theorem InStep.step (h : s.InStep steps published uri) (heffect : s.Effect request uri t more) :
    t.InStep (steps ++ [(s, request)]) (published ++ more) uri := by
  cases heffect with
  | untouched huncompleted hkept hsilent =>
    constructor
    · intro analysis hlookup
      rw [lastPublished_append_of_silent hsilent]
      obtain ⟨hshown, hlast⟩ := h.kept analysis (hkept ▸ hlookup)
      exact ⟨hshown, hlast.append huncompleted⟩
    · intro hlookup
      rw [lastPublished_append_of_silent hsilent]
      exact h.dropped (hkept ▸ hlookup)
  | @validated text result hanalysed hcompleted hkept hshown =>
    subst hshown
    constructor
    · intro analysis hlookup
      rw [hkept] at hlookup
      cases hlookup
      exact ⟨lastPublished_append_self _, steps, s, request, [], text, rfl, hanalysed, hcompleted,
        by simp⟩
    · intro hlookup
      simp [hkept] at hlookup
  | closed _ hdropped hshown =>
    subst hshown
    constructor
    · intro analysis hlookup
      simp [hdropped] at hlookup
    · intro _
      exact Or.inr (lastPublished_append_self _)

theorem Run.inStep (h : Run steps s published) (uri : String) : s.InStep steps published uri := by
  induction h with
  | start texts =>
    constructor
    · intro analysis hlookup
      cases hlookup
    · intro _
      exact Or.inl rfl
  | @step steps s published _ texts request ih =>
    have hbefore : { s with texts }.InStep steps published uri := ⟨ih.kept, ih.dropped⟩
    exact hbefore.step (handle_effect _ request uri)

/-- A session that only the requests change goes on in this way. -/
theorem Run.run (h : Run steps s published) (requests : List Request) :
    ∃ more : List (Session × Request), more.map Prod.snd = requests ∧
      Run (steps ++ more) (((s.run requests).map Prod.fst).getLastD s)
        (published ++ (s.run requests).flatMap (·.2.published)) := by
  induction requests generalizing steps s published with
  | nil => exact ⟨[], rfl, by simpa [Session.run] using h⟩
  | cons request requests ih =>
    obtain ⟨more, hmore, hrun⟩ := ih (h.step s.texts request)
    refine ⟨(s, request) :: more, by simp [hmore], ?_⟩
    simp only [List.append_assoc, List.singleton_append] at hrun
    simpa only [Session.run, List.map_cons, List.getLastD_cons, List.flatMap_cons] using hrun

end Session

/-- At every moment of a session, what was last published for a document that the session has an
analysis of are the findings of this analysis, which is the one of the last text that could be
analysed; for any other document nothing was published, or at last no findings. A request leaves
the other documents alone, and invalid settings leave the options alone. -/
theorem session_publishes_what_it_keeps (h : Session.Run steps s published) :
    (∀ uri analysis, s.analyses.lookup uri = some analysis →
      lastPublished uri published = some analysis.findings ∧ IsLastAnalysis uri steps analysis) ∧
    (∀ uri, s.analyses.lookup uri = none →
      lastPublished uri published = none ∨ lastPublished uri published = some []) ∧
    (∀ texts request uri, request.uri? ≠ some uri →
      ({ s with texts }.handle request).1.analyses.lookup uri = s.analyses.lookup uri ∧
      lastPublished uri (published ++ ({ s with texts }.handle request).2.published) =
        lastPublished uri published) ∧
    ∀ settings e, Options.ofMapping settings = .error e →
      (s.handle (.configure (some settings))).1.options = s.options := by
  refine ⟨fun uri => (h.inStep uri).kept, fun uri => (h.inStep uri).dropped, ?_, ?_⟩
  · intro texts request uri huri
    obtain ⟨hkept, hsilent⟩ := Session.handle_frame (s := { s with texts }) huri
    exact ⟨hkept, lastPublished_append_of_silent hsilent⟩
  · intro settings e he
    simp [Session.handle, Session.configure, he]

/-- One document is edited into a text that cannot be analysed, another one is closed again. -/
def editingRequests : List Request :=
  [.configure (some [("ecma_version", .int 5)]), .open_ "a" "class A { #x; #x }", .open_ "b" "x",
    .change "a" "x = ²", .close "b"]

theorem editingRequests_published :
    ∃ steps s published, Session.Run steps s published ∧ steps.map Prod.snd = editingRequests ∧
      (∃ analysis, s.analyses.lookup "a" = some analysis ∧ analysis.findings.length = 1 ∧
        lastPublished "a" published = some analysis.findings ∧ IsLastAnalysis "a" steps analysis) ∧
      s.analyses.lookup "b" = none ∧ lastPublished "b" published = some [] := by
  have hstart : Session.Run [] .initial [] := .start []
  obtain ⟨steps, hsteps, hrun⟩ := hstart.run editingRequests
  obtain ⟨hkept, -⟩ := session_publishes_what_it_keeps hrun
  have hfindings : ((((Session.initial.run editingRequests).map Prod.fst).getLastD
      .initial).analyses.lookup "a").map (·.findings.length) = some 1 := by
    decide +kernel
  obtain ⟨analysis, hlookup, hlength⟩ := Option.map_eq_some_iff.1 hfindings
  obtain ⟨hshown, hlast⟩ := hkept "a" analysis hlookup
  refine ⟨_, _, _, hrun, hsteps, ⟨analysis, hlookup, hlength, hshown, hlast⟩, ?_, ?_⟩
  · exact Option.isNone_iff_eq_none.1 (by decide +kernel)
  · have hlength : (lastPublished "b" ([] ++ (Session.initial.run editingRequests).flatMap
        (·.2.published))).map List.length = some 0 := by
      decide +kernel
    obtain ⟨findings, hfindings, hnil⟩ := Option.map_eq_some_iff.1 hlength
    rw [hfindings, List.length_eq_zero_iff.1 hnil]

end

end JsClass
