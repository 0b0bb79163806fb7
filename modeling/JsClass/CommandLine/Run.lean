import JsClass.CommandLine.Arguments
import JsClass.Excerpt
import JsClass.Parse
import JsClass.Syntax.Listing

/-! The command: reads one file, and shows its tokens, its tree or its problems. -/
namespace JsClass

/-- A token as a line of a listing. -/
def Token.render (t : Token) : Text :=
  .ofString s!"Token({t.kind.label}, " ++ t.kind.text.quoted
    ++ .ofString s!", {t.pos.line}:{t.pos.col})"

/-- Every kind of line end as LF. -/
def normalizeLineEnds : List Char → List Char
  | [] => []
  | '\r' :: '\n' :: rest => '\n' :: normalizeLineEnds rest
  | c :: rest => (if c = '\r' then '\n' else c) :: normalizeLineEnds rest

/-- The part of a path behind its last slash. -/
def baseName (path : String) : String :=
  .ofList (path.toList.reverse.takeWhile (· != '/')).reverse

namespace CommandLine

/-- Why a file cannot be read. -/
inductive FileError where
  | notFound | isDirectory | notDirectory
  /-- A part of the path is longer than names may be. -/
  | nameTooLong
  /-- No path has a null character. -/
  | nullInPath
deriving DecidableEq

/-- What ends a run without a report. -/
inductive Abort where
  | options (e : OptionsError)
  | failure (f : Failure)
  | file (e : FileError)

/-- How a run ends. -/
structure Outcome where
  exit : Nat
  stdout : Text
  stderr : Text

/-- Texts as lines, each with its end. -/
def lines (texts : List Text) : Text := texts.flatMap (· ++ Text.ofString "\n")

def Outcome.failed (message : Text) : Outcome := ⟨1, [], lines [message]⟩

/-- The last line of a text, whatever line ends are behind it. -/
def lastLine (t : Text) : Text :=
  let isEnd : CodePoint → Bool := (· == .ofChar '\n')
  ((t.reverse.dropWhile isEnd).takeWhile (!isEnd ·)).reverse

/-- Refused arguments: of the message only the last line is shown. -/
def Outcome.refused (e : ArgumentError) : Outcome :=
  ⟨2, [], lastLine (.ofString "privfields: error: " ++ e.message)⟩

def diagnosticExcerpt (level file source : String) (d : Diagnostic) : Text :=
  Excerpt.render ⟨level, d.cause.message, file, d.pos⟩ source

/-- Shows the tree, or says that all is well, below the warnings. -/
def report (i : Invocation) (path source : String) (p : Parsed) : Except Failure Outcome :=
  let warnings := lines (p.reported.map (diagnosticExcerpt "warning" (baseName path) source))
  if i.emitTree then
    match p.program.render? with
    | some tree => .ok ⟨0, lines [tree], warnings⟩
    | none => .error .unreadable
  else .ok ⟨0, lines [.ofString s!"OK {path}"], warnings⟩

/-- The command on a source text. Failures that cannot be reported on are left as failures. -/
def onSource (i : Invocation) (options : Options) (path source : String) :
    Except Failure Outcome :=
  match tokenize .withPrivate source with
  | .error (.lexical cause pos) =>
    .ok (.failed (Excerpt.render ⟨"error", .ofString cause.message, baseName path, pos⟩ source))
  | .error failure => .error failure
  | .ok stream =>
    if i.emitTokens then .ok ⟨0, lines (stream.toList.map Token.render), []⟩
    else match stream.parse .withPrivate options with
      | .error (.rejected d) => .ok (.failed (diagnosticExcerpt "error" (baseName path) source d))
      | .error failure => .error failure
      | .ok parsed => report i path source parsed

/-- The command on a file. Only a file that is not there is reported. -/
def onFile (i : Invocation) (path : String) (contents : Except FileError String) :
    Except Abort Outcome :=
  match i.options with
  | .error e =>
    if e.isRefusedValue then .ok (.failed (.ofString "Error: " ++ e.message))
    else .error (.options e)
  | .ok options =>
    match contents with
    | .error .notFound => .ok (.failed (.ofString s!"Error: File '{path}' not found"))
    | .error e => .error (.file e)
    | .ok text =>
      let source := String.ofList (normalizeLineEnds text.toList)
      (onSource i options path source).mapError .failure

/-- Runs the command; `contents` gives what is in the file at a path. -/
def run (args : List String) (contents : String → Except FileError String) :
    Except Abort Outcome :=
  match Invocation.ofArguments args with
  | .error e => .ok (.refused e)
  | .ok i =>
    match i.input with
    | none => .ok ⟨0, [], []⟩
    | some path => if i.help then .ok ⟨0, [], []⟩ else onFile i path (contents path)

end CommandLine

end JsClass
