import JsClass.Parse
import JsClass.Syntax.Fields

/-!
Diagnostics of a document for an editor. A failure comes first, then what was recorded, also what
was recorded before the failure. Positions count from zero.
-/
namespace JsClass

inductive Severity where
  | error | warning
deriving DecidableEq

/-- A problem with the range of one character that it is shown at. -/
structure Finding where
  line : Int
  character : Int
  message : Text
  severity : Severity

namespace Finding

/-- The tool that an editor names for a finding. -/
def source : String := "privfields"

/-- The column where the range ends. -/
def endCharacter (f : Finding) : Int := f.character + 1

/-- A finding at a position that counts from one. -/
def ofPosition (pos : Position) (message : Text) (severity : Severity) : Finding :=
  ⟨max 0 (pos.line - 1), max 0 (pos.col - 1), message, severity⟩

end Finding

/-- Problems of accessors are warnings, all others are errors. -/
def Cause.severity : Cause → Severity
  | .getterParams | .setterArity | .setterRest => .warning
  | _ => .error

def Diagnostic.finding (d : Diagnostic) : Finding :=
  .ofPosition d.pos d.cause.message d.cause.severity

/-- What is known of one version of a document. -/
structure Analysis where
  uri : String
  source : String
  findings : List Finding
  tokens : Option TokenStream
  program : Option Program

namespace Analysis

/-- Analyses a document by its tokens. -/
def ofStream (options : Options) (uri source : String) (s : TokenStream) :
    Except Failure Analysis :=
  match s.statements .withPrivate options with
  | .ok body state =>
    .ok ⟨uri, source, state.reported.map (·.finding), some s, some ⟨body, options.sourceType⟩⟩
  | .error (.rejected d) state =>
    .ok ⟨uri, source, (d :: state.reported).map (·.finding), some s, none⟩
  | .error fault _ => .error (.ofFault fault)

/-- Analyses a document. Only failures that cannot be reported on are left as failures. -/
def ofSource (options : Options) (uri source : String) : Except Failure Analysis :=
  match tokenize .withPrivate source with
  | .ok s => ofStream options uri source s
  | .error (.lexical cause pos) =>
    .ok ⟨uri, source, [.ofPosition pos (.ofString cause.message) .error], none, none⟩
  | .error failure => .error failure

/-- The number of tokens, the end of input among them. -/
def tokenCount? (a : Analysis) : Option Nat := a.tokens.map (·.toList.length)

/-- The number of nodes, the program itself among them. -/
def nodeCount? (a : Analysis) : Option Nat := a.program.map (·.nodes.length + 1)

end Analysis

end JsClass
