import JsClass.Assoc
import JsClass.Syntax.Fields
import JsClass.Syntax.Listing

/-!
Options of the reader, and how they are built from loosely typed settings. The edition may be
given by number or by year.
-/
namespace JsClass

/-- A supported edition of the language: from the one that brought classes to the latest. A number
between two editions stands for the lower one, and is kept as it was given. -/
structure Edition where
  number : Nat
  lower : 6 ≤ number
  upper : number ≤ 13
  between : Option Binary64
deriving DecidableEq

def Edition.latest : Edition := ⟨13, by decide, by decide, none⟩

/-- How reserved words are treated. Under `never` they are refused even as names of properties. A
number stands for the truth value it equals, and is kept as it was given; whichever it is, it
does not allow anything. -/
inductive ReservedPolicy where
  | allowed | forbidden | never
  | numeric (one : Bool)
deriving DecidableEq

structure Options where
  edition : Edition
  reserved : ReservedPolicy
  sourceType : SourceType
deriving DecidableEq

def Options.default : Options := ⟨.latest, .allowed, .script⟩

/-- The value of a setting, before it is checked. -/
inductive Setting where
  | null
  | bool (b : Bool)
  | int (n : Int)
  | float (x : Binary64)
  | text (s : String)
  | list (items : List Setting)
  | table (rows : List (String × Setting))

namespace Setting

mutual

/-- How a refused value is shown. -/
def render : Setting → Text
  | .null => .missing
  | .bool b => .ofBool b
  | .int n => .ofString (toString n)
  | .float x => .ofChars x.render
  | .text s => Text.quoted (.ofString s)
  | .list items => .joined "[" (renderList items) "]"
  | .table rows => .joined "\x7b" (renderRows rows) "\x7d"

def renderList : List Setting → List Text
  | [] => []
  | s :: rest => s.render :: renderList rest

def renderRows : List (String × Setting) → List Text
  | [] => []
  | (key, s) :: rest =>
    (Text.quoted (.ofString key) ++ .ofString ": " ++ s.render) :: renderRows rest

end

/-- The kind of a value, as errors name it. -/
def kindName : Setting → String
  | .null => "NoneType"
  | .bool _ => "bool"
  | .int _ => "int"
  | .float _ => "float"
  | .text _ => "str"
  | .list _ => "list"
  | .table _ => "dict"

end Setting

/-- Why settings make no options. -/
inductive OptionsError where
  | unknownName (name : String)
  /-- The name of an argument that is given by its place. -/
  | nameTaken (name : String)
  | editionNotNumeric (given : Setting)
  /-- A policy is to be set, but nothing says which. -/
  | policyNotNamed
  | unsupportedEdition (shown : Setting)
  | badPolicy (given : Setting)
  | badSourceType (given : Setting)
  /-- Finished options and further settings exclude each other. -/
  | optionsAndSettings

namespace OptionsError

/-- A value is refused for what it is. The other errors are in the form of the settings. -/
def isRefusedValue : OptionsError → Bool
  | .unsupportedEdition _ | .badPolicy _ | .badSourceType _ => true
  | .unknownName _ | .nameTaken _ | .editionNotNumeric _ | .policyNotNamed
  | .optionsAndSettings => false

/-- The wording of an error. -/
def message : OptionsError → Text
  | .unknownName name =>
    .ofString s!"Options.__init__() got an unexpected keyword argument '{name}'"
  | .nameTaken name =>
    .ofString s!"parse_with_diagnostics() got multiple values for argument '{name}'"
  | .editionNotNumeric given =>
    let kind := given.kindName
    .ofString s!"'>=' not supported between instances of '{kind}' and 'int'"
  | .policyNotNamed => .ofString "unhashable type: 'list'"
  | .unsupportedEdition shown =>
    .ofString "Unsupported ecma_version " ++ shown.render
      ++ .ofString ": classes need 6 (2015) through 13 (2022)"
  | .badPolicy given =>
    .ofString "allow_reserved must be True, False or 'never', got " ++ given.render
  | .badSourceType given =>
    .ofString "source_type must be 'script' or 'module', got " ++ given.render
  | .optionsAndSettings =>
    .ofString "pass either an Options instance or keyword options, not both"

end OptionsError

/-- Settings by name, each name once. -/
abbrev Settings := Assoc Setting

namespace Edition

/-- From 2015 on a number is a year. -/
def normalize (n : Int) : Int := if 2015 ≤ n then n - 2009 else n

/-- The same for a number with a point. -/
def normalizeFloat (x : Binary64) : Binary64 :=
  if !x.isNegative && 2015 ≤ x.whole then x.minus 2009 else x

/-- The edition at or below a number with a point. -/
def ofFloat (x : Binary64) : Except OptionsError Edition :=
  let number := x.whole
  if h : 6 ≤ number ∧ number ≤ 13 then
    if x.isNegative || (number = 13 && !x.isWhole) then .error (.unsupportedEdition (.float x))
    else .ok ⟨number, h.1, h.2, if x.isWhole then none else some x⟩
  else .error (.unsupportedEdition (.float x))

def ofSetting : Setting → Except OptionsError Edition
  | .int n =>
    let number := normalize n
    if h : 6 ≤ number ∧ number ≤ 13 then .ok ⟨number.toNat, by omega, by omega, none⟩
    else .error (.unsupportedEdition (.int number))
  | .float x => ofFloat (normalizeFloat x)
  | .bool b => .error (.unsupportedEdition (.bool b))
  | s => .error (.editionNotNumeric s)

end Edition

def ReservedPolicy.ofSetting : Setting → Except OptionsError ReservedPolicy
  | .bool true => .ok .allowed
  | .bool false => .ok .forbidden
  | .text "never" => .ok .never
  | .int 1 => .ok (.numeric true)
  | .int 0 => .ok (.numeric false)
  | .float x =>
    if x.isWhole && x.whole = 0 then .ok (.numeric false)
    else if x.isWhole && x.whole = 1 && !x.isNegative then .ok (.numeric true)
    else .error (.badPolicy (.float x))
  | s => .error (.badPolicy s)

def SourceType.ofSetting : Setting → Except OptionsError SourceType
  | .text "script" => .ok .script
  | .text "module" => .ok .module
  | s => .error (.badSourceType s)

namespace Options

def names : List String := ["ecma_version", "allow_reserved", "source_type"]

/-- Options from settings, with defaults for what is not set. -/
def ofSettings (settings : Settings) : Except OptionsError Options := do
  if let some (name, _) := settings.find? fun row => !names.contains row.1 then
    throw (.unknownName name)
  let get (name : String) (default : Setting) := (settings.lookup name).getD default
  let edition ← Edition.ofSetting (get "ecma_version" (.int 2022))
  let reserved ← ReservedPolicy.ofSetting (get "allow_reserved" (.bool true))
  let sourceType ← SourceType.ofSetting (get "source_type" (.text "script"))
  return ⟨edition, reserved, sourceType⟩

/-- Options from a mapping that may hold other settings too. -/
def ofMapping (settings : Settings) : Except OptionsError Options :=
  ofSettings (settings.filter fun row => names.contains row.1)

/-- Settings with some of them overridden, each in its place. -/
def override (settings changes : Settings) : Settings :=
  changes.foldl (fun settings row => settings.put row.1 row.2) settings

/-- The names under which a reader is given its text and its options; no change may have them. -/
def argumentNames : List String := ["source", "options"]

def checkNames (changes : Settings) : Except OptionsError Unit :=
  match changes.find? fun row => argumentNames.contains row.1 with
  | some (name, _) => .error (.nameTaken name)
  | none => .ok ()

/-- Options from settings with changes on top. If the settings are to be finished options of their
own, they are checked first and allow no changes. The name of a file may come along with the
changes, and changes nothing. -/
def resolve (finished : Bool) (settings changes : Settings) : Except OptionsError Options := do
  let changes := changes.erase "filename"
  if finished then
    let options ← ofSettings settings
    checkNames changes
    if changes.isEmpty then return options else throw .optionsAndSettings
  else
    checkNames changes
    ofSettings (override settings changes)

end Options

end JsClass
