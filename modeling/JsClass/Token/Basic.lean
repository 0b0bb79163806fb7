import JsClass.Source.Place
import JsClass.Text.CodePoint
import JsClass.Token.Spelling

/-! Tokens and token streams. -/
namespace JsClass

/-- What a token is. A number keeps its spelling, a string its decoded text, and a private name
the word after the number sign, which may be empty. -/
inductive Kind where
  | number (raw : String)
  | string (value : Text)
  | name (word : String)
  | privateName (word : String)
  | keyword (k : Keyword)
  | punct (p : Punct)
  | eof
deriving DecidableEq

namespace Kind

/-- The kind of an ordinary word. -/
def ofWord (word : String) : Kind :=
  match Keyword.ofWord? word with
  | some k => .keyword k
  | none => .name word

/-- The word of a name or a keyword. -/
def word? : Kind → Option String
  | .name word => some word
  | .keyword k => some k.text
  | _ => none

def isName : Kind → Bool
  | .name _ => true
  | _ => false

def isPrivateName : Kind → Bool
  | .privateName _ => true
  | _ => false

/-- The text that a token carries. -/
def text : Kind → Text
  | .number raw => .ofString raw
  | .string value => value
  | .name word | .privateName word => .ofString word
  | .keyword k => .ofString k.text
  | .punct p => .ofString p.text
  | .eof => []

/-- The kind's name in listings of tokens. -/
def label : Kind → String
  | .number _ => "NUM"
  | .string _ => "STRING"
  | .name _ => "NAME"
  | .privateName _ => "PRIVATE_NAME"
  | .keyword k => k.text.map Char.toUpper
  | .punct p => p.label
  | .eof => "EOF"

end Kind

structure Token where
  kind : Kind
  place : Place
  /-- Whether a line terminator stands between the token before and this one. -/
  newlineBefore : Bool
deriving DecidableEq

/-- The position that nodes and diagnostics take from a token. -/
def Token.pos (t : Token) : Position := t.place.toPosition

/-- The tokens of a text, with the end of input apart: it is there exactly once, at the end. -/
structure TokenStream where
  tokens : List Token
  finish : Token
deriving DecidableEq

def TokenStream.toList (s : TokenStream) : List Token := s.tokens ++ [s.finish]

/-- Whether private names and members are part of the language. -/
inductive Dialect where
  | plain
  | withPrivate
deriving DecidableEq

end JsClass
