/-! Keywords and punctuators, with their spellings. -/
namespace JsClass

/-- The words that are never plain names. -/
inductive Keyword where
  | break_ | case_ | catch_ | class_ | const_ | continue_ | debugger_ | default_ | delete_ | do_
  | else_ | export_ | extends_ | false_ | finally_ | for_ | function_ | if_ | import_ | in_
  | instanceof_ | new_ | null_ | return_ | super_ | switch_ | this_ | throw_ | true_ | try_
  | typeof_ | var_ | void_ | while_ | with_
deriving DecidableEq

namespace Keyword

def all : List Keyword :=
  [.break_, .case_, .catch_, .class_, .const_, .continue_, .debugger_, .default_, .delete_, .do_,
   .else_, .export_, .extends_, .false_, .finally_, .for_, .function_, .if_, .import_, .in_,
   .instanceof_, .new_, .null_, .return_, .super_, .switch_, .this_, .throw_, .true_, .try_,
   .typeof_, .var_, .void_, .while_, .with_]

/-- How the keyword is written. -/
def text : Keyword → String
  | .break_ => "break"
  | .case_ => "case"
  | .catch_ => "catch"
  | .class_ => "class"
  | .const_ => "const"
  | .continue_ => "continue"
  | .debugger_ => "debugger"
  | .default_ => "default"
  | .delete_ => "delete"
  | .do_ => "do"
  | .else_ => "else"
  | .export_ => "export"
  | .extends_ => "extends"
  | .false_ => "false"
  | .finally_ => "finally"
  | .for_ => "for"
  | .function_ => "function"
  | .if_ => "if"
  | .import_ => "import"
  | .in_ => "in"
  | .instanceof_ => "instanceof"
  | .new_ => "new"
  | .null_ => "null"
  | .return_ => "return"
  | .super_ => "super"
  | .switch_ => "switch"
  | .this_ => "this"
  | .throw_ => "throw"
  | .true_ => "true"
  | .try_ => "try"
  | .typeof_ => "typeof"
  | .var_ => "var"
  | .void_ => "void"
  | .while_ => "while"
  | .with_ => "with"

/-- The keyword that a word is, if it is one. -/
def ofWord? (word : String) : Option Keyword := all.find? (·.text == word)

end Keyword

/-- Operators, brackets and separators. -/
inductive Punct where
  | plus | minus | star | starStar | slash | percent | eq | eqEq | eqEqEq | bangEq | bangEqEq
  | lt | gt | ltEq | gtEq | ampAmp | pipePipe | questionQuestion | bang | amp | pipe | caret
  | tilde | ltLt | gtGt | gtGtGt | plusEq | minusEq | starEq | starStarEq | slashEq | percentEq
  | ampEq | pipeEq | caretEq | ltLtEq | gtGtEq | gtGtGtEq | ampAmpEq | pipePipeEq
  | questionQuestionEq | plusPlus | minusMinus | fatArrow | dot | ellipsis | question | colon
  | comma | semicolon | lparen | rparen | lbracket | rbracket | lbrace | rbrace
deriving DecidableEq

namespace Punct

def all : List Punct :=
  [.plus, .minus, .star, .starStar, .slash, .percent, .eq, .eqEq, .eqEqEq, .bangEq, .bangEqEq,
   .lt, .gt, .ltEq, .gtEq, .ampAmp, .pipePipe, .questionQuestion, .bang, .amp, .pipe, .caret,
   .tilde, .ltLt, .gtGt, .gtGtGt, .plusEq, .minusEq, .starEq, .starStarEq, .slashEq, .percentEq,
   .ampEq, .pipeEq, .caretEq, .ltLtEq, .gtGtEq, .gtGtGtEq, .ampAmpEq, .pipePipeEq,
   .questionQuestionEq, .plusPlus, .minusMinus, .fatArrow, .dot, .ellipsis, .question, .colon,
   .comma, .semicolon, .lparen, .rparen, .lbracket, .rbracket, .lbrace, .rbrace]

/-- How the punctuator is written. -/
def text : Punct → String
  | .plus => "+"
  | .minus => "-"
  | .star => "*"
  | .starStar => "**"
  | .slash => "/"
  | .percent => "%"
  | .eq => "="
  | .eqEq => "=="
  | .eqEqEq => "==="
  | .bangEq => "!="
  | .bangEqEq => "!=="
  | .lt => "<"
  | .gt => ">"
  | .ltEq => "<="
  | .gtEq => ">="
  | .ampAmp => "&&"
  | .pipePipe => "||"
  | .questionQuestion => "??"
  | .bang => "!"
  | .amp => "&"
  | .pipe => "|"
  | .caret => "^"
  | .tilde => "~"
  | .ltLt => "<<"
  | .gtGt => ">>"
  | .gtGtGt => ">>>"
  | .plusEq => "+="
  | .minusEq => "-="
  | .starEq => "*="
  | .starStarEq => "**="
  | .slashEq => "/="
  | .percentEq => "%="
  | .ampEq => "&="
  | .pipeEq => "|="
  | .caretEq => "^="
  | .ltLtEq => "<<="
  | .gtGtEq => ">>="
  | .gtGtGtEq => ">>>="
  | .ampAmpEq => "&&="
  | .pipePipeEq => "||="
  | .questionQuestionEq => "??="
  | .plusPlus => "++"
  | .minusMinus => "--"
  | .fatArrow => "=>"
  | .dot => "."
  | .ellipsis => "..."
  | .question => "?"
  | .colon => ":"
  | .comma => ","
  | .semicolon => ";"
  | .lparen => "("
  | .rparen => ")"
  | .lbracket => "["
  | .rbracket => "]"
  | .lbrace => "\x7b"
  | .rbrace => "\x7d"

/-- The punctuator's name in listings of tokens. -/
def label : Punct → String
  | .plus => "PLUS"
  | .minus => "MINUS"
  | .star => "STAR"
  | .starStar => "STAR_STAR"
  | .slash => "SLASH"
  | .percent => "PERCENT"
  | .eq => "EQ"
  | .eqEq => "EQ_EQ"
  | .eqEqEq => "EQ_EQ_EQ"
  | .bangEq => "BANG_EQ"
  | .bangEqEq => "BANG_EQ_EQ"
  | .lt => "LT"
  | .gt => "GT"
  | .ltEq => "LT_EQ"
  | .gtEq => "GT_EQ"
  | .ampAmp => "AMP_AMP"
  | .pipePipe => "PIPE_PIPE"
  | .questionQuestion => "QUESTION_QUESTION"
  | .bang => "BANG"
  | .amp => "AMP"
  | .pipe => "PIPE"
  | .caret => "CARET"
  | .tilde => "TILDE"
  | .ltLt => "LT_LT"
  | .gtGt => "GT_GT"
  | .gtGtGt => "GT_GT_GT"
  | .plusEq => "PLUS_EQ"
  | .minusEq => "MINUS_EQ"
  | .starEq => "STAR_EQ"
  | .starStarEq => "STAR_STAR_EQ"
  | .slashEq => "SLASH_EQ"
  | .percentEq => "PERCENT_EQ"
  | .ampEq => "AMP_EQ"
  | .pipeEq => "PIPE_EQ"
  | .caretEq => "CARET_EQ"
  | .ltLtEq => "LT_LT_EQ"
  | .gtGtEq => "GT_GT_EQ"
  | .gtGtGtEq => "GT_GT_GT_EQ"
  | .ampAmpEq => "AMP_AMP_EQ"
  | .pipePipeEq => "PIPE_PIPE_EQ"
  | .questionQuestionEq => "QUESTION_QUESTION_EQ"
  | .plusPlus => "PLUS_PLUS"
  | .minusMinus => "MINUS_MINUS"
  | .fatArrow => "FAT_ARROW"
  | .dot => "DOT"
  | .ellipsis => "ELLIPSIS"
  | .question => "QUESTION"
  | .colon => "COLON"
  | .comma => "COMMA"
  | .semicolon => "SEMICOLON"
  | .lparen => "LPAREN"
  | .rparen => "RPAREN"
  | .lbracket => "LBRACKET"
  | .rbracket => "RBRACKET"
  | .lbrace => "LBRACE"
  | .rbrace => "RBRACE"

/-- The spellings of all punctuators. -/
def table : List (List Char × Punct) := all.map fun p => (p.text.toList, p)

end Punct

end JsClass
