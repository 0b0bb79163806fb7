import JsClass.Grammar.Program

/-! From source text to program: first all tokens, then the tree. -/
namespace JsClass

/-- Why a source text is no program. -/
inductive Failure where
  | lexical (cause : LexicalCause) (pos : Position)
  | rejected (d : Diagnostic)
  /-- A number or an escape denotes nothing, and there is nothing to report on. -/
  | unreadable
  /-- A number is outside of the words that it would have to fit in. -/
  | overflow
  | noClass
  | exhausted
deriving DecidableEq

def Failure.ofLexical (e : LexicalError) : Failure :=
  match e.fault with
  | .cause c => .lexical c e.pos
  | .negativeCodePoint => .unreadable
  | .codePointUnderflow => .overflow

def Failure.ofFault : Fault → Failure
  | .rejected d => .rejected d
  | .unreadableNumber => .unreadable
  | .noClass => .noClass
  | .exhausted => .exhausted

/-- A program and the problems that did not stop it from being read. -/
structure Parsed where
  program : Program
  reported : List Diagnostic

def tokenize (d : Dialect) (source : String) : Except Failure TokenStream :=
  (TokenStream.ofString d source).mapError .ofLexical

def TokenStream.parse (d : Dialect) (options : Options) (s : TokenStream) :
    Except Failure Parsed :=
  match s.statements d options with
  | .ok body state => .ok ⟨⟨body, options.sourceType⟩, state.reported⟩
  | .error fault _ => .error (.ofFault fault)

/-- Parses a source text; tokens and tree may follow different dialects. -/
def parseWith (tokens tree : Dialect) (options : Options) (source : String) :
    Except Failure Parsed := do
  (← tokenize tokens source).parse tree options

/-- Parses a source text with private members. -/
def parse (options : Options) (source : String) : Except Failure Parsed :=
  parseWith .withPrivate .withPrivate options source

end JsClass
