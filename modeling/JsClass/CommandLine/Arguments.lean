import JsClass.Numeral.Integer
import JsClass.Options
import JsClass.Source.Run

/-!
Arguments of the command line. Options may stand anywhere and may be cut short as long as one
option is meant; two dashes end the options. An option's value is the next argument, or stands
behind an equals sign; two dashes behind it are no value.
-/
namespace JsClass.CommandLine

inductive Flag where
  | help | edition | reserved | sourceType | emitTokens | emitTree
deriving DecidableEq

namespace Flag

/-- Every spelling of every option, in the order in which matches are listed. -/
def spellings : Assoc Flag :=
  [("-h", .help), ("--help", .help), ("--ecma-version", .edition),
   ("--allow-reserved", .reserved), ("--source-type", .sourceType),
   ("--emit-tokens", .emitTokens), ("--emit-ast", .emitTree)]

/-- The option's name in error messages. -/
def title : Flag → String
  | .help => "-h/--help"
  | .edition => "--ecma-version"
  | .reserved => "--allow-reserved"
  | .sourceType => "--source-type"
  | .emitTokens => "--emit-tokens"
  | .emitTree => "--emit-ast"

def takesValue : Flag → Bool
  | .edition | .reserved | .sourceType => true
  | .help | .emitTokens | .emitTree => false

end Flag

/-- Why arguments are refused. -/
inductive ArgumentError where
  | ambiguous (given : String) (matching : List String)
  | missingValue (flag : Flag)
  | ignoredValue (flag : Flag) (value : String)
  | notInteger (value : String)
  | notChoice (flag : Flag) (value : String) (choices : List String)
  | missingInput
  | unrecognized (extras : List String)

/-- A string between quotes. -/
def quote (s : String) : Text := Text.quoted (.ofString s)

def ArgumentError.message : ArgumentError → Text
  | .ambiguous given matching =>
    .ofString s!"ambiguous option: {given} could match " ++ .ofString (", ".intercalate matching)
  | .missingValue flag => .ofString s!"argument {flag.title}: expected one argument"
  | .ignoredValue flag value =>
    .ofString s!"argument {flag.title}: ignored explicit argument " ++ quote value
  | .notInteger value => .ofString "argument --ecma-version: invalid int value: " ++ quote value
  | .notChoice flag value choices =>
    .ofString s!"argument {flag.title}: invalid choice: " ++ quote value
      ++ .joined " (choose from " (choices.map quote) ")"
  | .missingInput => .ofString "the following arguments are required: input"
  | .unrecognized extras => 
    .ofString "unrecognized arguments: " ++ .ofString (" ".intercalate extras)

/-- What an argument is by its looks. -/
inductive Word where
  | value (text : String)
  /-- The two dashes that end the options. -/
  | dashes
  | option (flag : Flag) (spelling : String) (explicit : Option String)
  /-- Looks like an option, but is none. -/
  | unknown (text : String)

def Word.isOption : Word → Bool
  | .option .. | .unknown _ => true
  | .value _ | .dashes => false

/-- The argument again, where it is left over. -/
def Word.extra : Word → String
  | .value text | .unknown text => text
  | .dashes => "--"
  | .option _ spelling explicit => spelling ++ explicit.elim "" ("=" ++ ·)

/-- What stands before and behind the first equals sign. -/
def splitEquals (cs : List Char) : List Char × Option (List Char) :=
  match splitWhile (· != '=') cs with
  | (name, []) => (name, none)
  | (name, _ :: value) => (name, some value)

/-- The options whose spelling starts with what was given, with their explicit values. -/
def candidates (cs : List Char) : List (Flag × String × Option String) :=
  match cs with
  | '-' :: '-' :: _ =>
    let (name, value) := splitEquals cs
    (Flag.spellings.filter fun row => name.isPrefixOf row.1.toList).map fun row =>
      (row.2, row.1, value.map String.ofList)
  | ['-', 'h'] => [(.help, "-h", none)]
  | '-' :: 'h' :: rest => [(.help, "-h", some (.ofList rest))]
  | _ => []

/-- Whether an argument is a negative number, and so a value. -/
def isNegativeNumber : List Char → Bool
  | '-' :: rest =>
    let isDigit c := (Text.decimalValue? c).isSome
    let body := match rest.reverse with
      | '\n' :: r => r.reverse
      | _ => rest
    let (whole, behind) := splitWhile isDigit body
    match behind with
    | [] => !whole.isEmpty
    | '.' :: places => !places.isEmpty && places.all isDigit
    | _ => false
  | _ => false

/-- Classifies an argument before two dashes. -/
def Word.ofArgument (arg : String) : Except ArgumentError Word :=
  let cs := arg.toList
  let (name, given) := splitEquals cs
  match cs with
  | [] | [_] => .ok (.value arg)
  | '-' :: _ =>
    match Flag.spellings.lookup arg, Flag.spellings.lookup (.ofList name), given with
    | some flag, _, _ => .ok (.option flag arg none)
    | none, some flag, some given => .ok (.option flag (.ofList name) (some (.ofList given)))
    | _, _, _ =>
      match candidates cs with
      | [(flag, spelling, explicit)] => .ok (.option flag spelling explicit)
      | [] =>
        if isNegativeNumber cs || cs.contains ' ' then .ok (.value arg) else .ok (.unknown arg)
      | many => .error (.ambiguous arg (many.map (·.2.1)))
  | _ => .ok (.value arg)

/-- Classifies all arguments; behind two dashes all are values. -/
def classify : List String → Except ArgumentError (List Word)
  | [] => .ok []
  | "--" :: rest => .ok (.dashes :: rest.map .value)
  | arg :: rest => do
    let word ← Word.ofArgument arg
    return word :: (← classify rest)

/-- What the command is asked to do. An option without a value is set to an empty list, or to no
policy. -/
structure Invocation where
  input : Option String
  edition : Setting
  reserved : Option ReservedPolicy
  sourceType : Setting
  emitTokens : Bool
  emitTree : Bool
  help : Bool
  /-- Arguments that mean nothing. -/
  extras : List String

def Invocation.default : Invocation :=
  ⟨none, .int 2022, some .allowed, .text "script", false, false, false, []⟩

namespace Invocation

/-- Sets an option that takes a value. -/
def withValue (i : Invocation) (flag : Flag) (value : String) :
    Except ArgumentError Invocation :=
  match flag, value with
  | .edition, "--" => .ok { i with edition := .list [] }
  | .edition, _ =>
    match Numeral.integer? 10 value.toList with
    | some edition => .ok { i with edition := .int edition }
    | none => .error (.notInteger value)
  | .reserved, "--" => .ok { i with reserved := none }
  | .reserved, "true" => .ok { i with reserved := some .allowed }
  | .reserved, "false" => .ok { i with reserved := some .forbidden }
  | .reserved, "never" => .ok { i with reserved := some .never }
  | .reserved, _ => .error (.notChoice flag value ["false", "never", "true"])
  | .sourceType, "--" => .ok { i with sourceType := .list [] }
  | .sourceType, "script" | .sourceType, "module" => .ok { i with sourceType := .text value }
  | .sourceType, _ => .error (.notChoice flag value ["script", "module"])
  | _, _ => .error (.ignoredValue flag value)

/-- Sets an option that takes no value. -/
def withFlag (i : Invocation) : Flag → Invocation
  | .emitTokens => { i with emitTokens := true }
  | .emitTree => { i with emitTree := true }
  | .help => { i with help := true }
  | _ => i

/-- Letters behind a short option are short options too. -/
def withLetters (i : Invocation) (letters : String) : Except ArgumentError Invocation :=
  match letters.toList.dropWhile (· == 'h') with
  | [] => if letters == "" then .error (.ignoredValue .help "") else .ok (i.withFlag .help)
  | rest => .error (.ignoredValue .help (.ofList rest))

def withExtras (i : Invocation) (words : List Word) : Invocation :=
  { i with extras := i.extras ++ words.map (·.extra) }

/-- The arguments behind the last option. Two dashes around the input belong to it. -/
def finish (i : Invocation) (words : List Word) : Invocation :=
  match i.input, words with
  | none, .dashes :: .value text :: rest => { i with input := some text }.withExtras rest
  | none, .value text :: .dashes :: rest => { i with input := some text }.withExtras rest
  | none, .value text :: rest => { i with input := some text }.withExtras rest
  | _, words => i.withExtras words

/-- A value before an option is the input, or means nothing if there is an input already. -/
def withPositional (i : Invocation) (word : Word) : Invocation :=
  match i.input, word with
  | none, .value text => { i with input := some text }
  | _, word => i.withExtras [word]

/-- Takes over argument after argument. Asking for help ends it. -/
def read (i : Invocation) : List Word → Except ArgumentError Invocation
  | [] => .ok i
  | .unknown text :: rest => (i.withExtras [.unknown text]).read rest
  | .option flag spelling (some value) :: rest => do
    let i ←
      if flag.takesValue then i.withValue flag value
      else if spelling == "-h" then i.withLetters value
      else .error (.ignoredValue flag value)
    if i.help then return i else i.read rest
  | .option flag _ none :: rest =>
    if flag.takesValue then
      match rest with
      | .value value :: rest => do (← i.withValue flag value).read rest
      | _ => .error (.missingValue flag)
    else
      let i := i.withFlag flag
      if i.help then .ok i else i.read rest
  | word :: rest =>
    if rest.any Word.isOption then (i.withPositional word).read rest
    else .ok (i.finish (word :: rest))

/-- The invocation that the arguments describe. -/
def ofArguments (args : List String) : Except ArgumentError Invocation := do
  let i ← default.read (← classify args)
  if i.help then return i
  else if i.input.isNone then throw .missingInput
  else if i.extras.isEmpty then return i
  else throw (.unrecognized i.extras)

/-- The options of the reader that are asked for. -/
def options (i : Invocation) : Except OptionsError Options := do
  let some reserved := i.reserved | throw .policyNotNamed
  let edition ← Edition.ofSetting i.edition
  let sourceType ← SourceType.ofSetting i.sourceType
  return ⟨edition, reserved, sourceType⟩

end Invocation

end JsClass.CommandLine
