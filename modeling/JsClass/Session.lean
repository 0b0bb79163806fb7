import JsClass.Analysis
import JsClass.Assoc

/-! A session with an editor: the options in use, the open texts, and the last analysis of each
document. -/
namespace JsClass

structure Session where
  options : Options
  /-- The current text of each open document. -/
  texts : Assoc String
  analyses : Assoc Analysis

/-- What the editor says. -/
inductive Request where
  /-- New settings; what is no table of settings is ignored. -/
  | configure (settings : Option Settings)
  | open_ (uri text : String)
  | change (uri text : String)
  | save (uri : String)
  | close (uri : String)

inductive LogLevel where
  | info | warning
deriving DecidableEq

/-- What is written to the log. -/
inductive LogEntry where
  | analysed (uri : String) (count : Nat)
  | settingsIgnored (e : OptionsError)

namespace LogEntry

def level : LogEntry → LogLevel
  | .analysed .. => .info
  | .settingsIgnored _ => .warning

def text : LogEntry → Text
  | .analysed uri count => .ofString s!"{uri}: {count} diagnostic(s)"
  | .settingsIgnored e => .ofString "Ignoring invalid initializationOptions: " ++ e.message

end LogEntry

/-- What is sent to the editor and to the log. -/
structure Response where
  failure : Option Failure
  published : List (String × List Finding)
  log : List LogEntry

def Response.silent : Response := ⟨none, [], []⟩

namespace Session

def initial : Session := ⟨.default, [], []⟩

/-- Invalid settings leave the options as they are. -/
def configure (s : Session) : Option Settings → Session × Response
  | none => (s, .silent)
  | some settings =>
    match Options.ofMapping settings with
    | .ok options => ({ s with options }, .silent)
    | .error e => (s, ⟨none, [], [.settingsIgnored e]⟩)

/-- Analyses a document and publishes what was found. A failure changes nothing. -/
def validate (s : Session) (uri text : String) : Session × Response :=
  match Analysis.ofSource s.options uri text with
  | .error failure => (s, ⟨some failure, [], []⟩)
  | .ok analysis =>
    ({ s with analyses := s.analyses.put uri analysis },
      ⟨none, [(uri, analysis.findings)], [.analysed uri analysis.findings.length]⟩)

/-- Takes over a document's new text and analyses it. -/
def update (s : Session) (uri text : String) : Session × Response :=
  { s with texts := s.texts.put uri text }.validate uri text

def close (s : Session) (uri : String) : Session × Response :=
  ({ s with texts := s.texts.erase uri, analyses := s.analyses.erase uri },
    ⟨none, [(uri, [])], []⟩)

def handle (s : Session) : Request → Session × Response
  | .configure settings => s.configure settings
  | .open_ uri text | .change uri text => s.update uri text
  | .save uri => s.validate uri ((s.texts.lookup uri).getD "")
  | .close uri => s.close uri

/-- The session and the response after each request. -/
def run (s : Session) : List Request → List (Session × Response)
  | [] => []
  | request :: rest =>
    let step := s.handle request
    step :: run step.1 rest

end Session

end JsClass
