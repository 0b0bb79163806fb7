import JsClass.Analysis
import JsClass.Assoc
import JsClass.CommandLine.Arguments
import JsClass.CommandLine.Run
import JsClass.Diagnostic
import JsClass.Excerpt
import JsClass.Grammar.Basic
import JsClass.Grammar.Class
import JsClass.Grammar.ClassElement
import JsClass.Grammar.Expression
import JsClass.Grammar.Function
import JsClass.Grammar.Parser
import JsClass.Grammar.PrivateElement
import JsClass.Grammar.Program
import JsClass.Grammar.Property
import JsClass.Grammar.Repeat
import JsClass.Grammar.Statement
import JsClass.Grammar.Word
import JsClass.Main
import JsClass.Numeral.Basic
import JsClass.Numeral.Binary64
import JsClass.Numeral.Decimal
import JsClass.Numeral.Integer
import JsClass.Numeral.Shortest
import JsClass.Options
import JsClass.Parse
import JsClass.Proofs.AccessorProblems
import JsClass.Proofs.BracketNesting
import JsClass.Proofs.ClassLegality
import JsClass.Proofs.ConservativeExtension
import JsClass.Proofs.ContextRestoration
import JsClass.Proofs.ContextualRules
import JsClass.Proofs.DuplicateDeclarations
import JsClass.Proofs.Edition.Basic
import JsClass.Proofs.Edition.Expressions
import JsClass.Proofs.Edition.Functions
import JsClass.Proofs.Edition.Members
import JsClass.Proofs.Edition.Statements
import JsClass.Proofs.EditionFilter
import JsClass.Proofs.EnclosingFunctions
import JsClass.Proofs.Endings.Basic
import JsClass.Proofs.Endings.Closing
import JsClass.Proofs.Endings.Expressions
import JsClass.Proofs.Endings.Functions
import JsClass.Proofs.Endings.LastMember
import JsClass.Proofs.Endings.Members
import JsClass.Proofs.Endings.Statements
import JsClass.Proofs.Extension.Basic
import JsClass.Proofs.Extension.Expressions
import JsClass.Proofs.Extension.Functions
import JsClass.Proofs.Extension.Members
import JsClass.Proofs.Extension.Statements
import JsClass.Proofs.FailureReports
import JsClass.Proofs.FieldEnds
import JsClass.Proofs.Grammar.Classes
import JsClass.Proofs.Grammar.Expressions
import JsClass.Proofs.Grammar.Formed
import JsClass.Proofs.Grammar.Functions
import JsClass.Proofs.Grammar.Members
import JsClass.Proofs.Grammar.Reads
import JsClass.Proofs.Grammar.Repeat
import JsClass.Proofs.Grammar.Statements
import JsClass.Proofs.Grammar.Success
import JsClass.Proofs.Grammar.Super
import JsClass.Proofs.LayoutIndependence
import JsClass.Proofs.LexicalDeclarations
import JsClass.Proofs.Likeness.Alignment
import JsClass.Proofs.Likeness.Basic
import JsClass.Proofs.Likeness.Expressions
import JsClass.Proofs.Likeness.Functions
import JsClass.Proofs.Likeness.Leniency
import JsClass.Proofs.Likeness.Members
import JsClass.Proofs.Likeness.Procedures
import JsClass.Proofs.Likeness.Range
import JsClass.Proofs.Likeness.Scopes
import JsClass.Proofs.Likeness.Statements
import JsClass.Proofs.Likeness.Trees
import JsClass.Proofs.Likeness.Values
import JsClass.Proofs.LineBreaks
import JsClass.Proofs.LineComposition
import JsClass.Proofs.LongestNumber
import JsClass.Proofs.LongestOperator
import JsClass.Proofs.Nesting.Basic
import JsClass.Proofs.Nesting.Expressions
import JsClass.Proofs.Nesting.Functions
import JsClass.Proofs.Nesting.Members
import JsClass.Proofs.Nesting.Statements
import JsClass.Proofs.NumberEnds
import JsClass.Proofs.NumberValues
import JsClass.Proofs.Numeral.Denotation
import JsClass.Proofs.Numeral.Legible
import JsClass.Proofs.OpenUses
import JsClass.Proofs.OperatorGrouping
import JsClass.Proofs.Parentheses
import JsClass.Proofs.PolicyTightening
import JsClass.Proofs.PrivateRenaming
import JsClass.Proofs.PrivateResolution
import JsClass.Proofs.PrivateWords
import JsClass.Proofs.Procedure.Basic
import JsClass.Proofs.Procedure.Scopes
import JsClass.Proofs.RecordedOnce
import JsClass.Proofs.ReportedPositions
import JsClass.Proofs.Safety.Basic
import JsClass.Proofs.Safety.Expressions
import JsClass.Proofs.Safety.Functions
import JsClass.Proofs.Safety.Members
import JsClass.Proofs.Safety.Statements
import JsClass.Proofs.Scope.Calls
import JsClass.Proofs.Scope.Frames
import JsClass.Proofs.Scope.Histories
import JsClass.Proofs.Scope.Resolution
import JsClass.Proofs.Sequel.Basic
import JsClass.Proofs.Sequel.Expressions
import JsClass.Proofs.Sequel.Functions
import JsClass.Proofs.Sequel.Members
import JsClass.Proofs.Sequel.Statements
import JsClass.Proofs.SessionConsistency
import JsClass.Proofs.SeverityAgreement
import JsClass.Proofs.SourceOrder
import JsClass.Proofs.StatementComposition
import JsClass.Proofs.StringLiterals
import JsClass.Proofs.Syntax.Accessors
import JsClass.Proofs.Syntax.Members
import JsClass.Proofs.Syntax.PrivateNames
import JsClass.Proofs.Termination
import JsClass.Proofs.Token.Escapes
import JsClass.Proofs.Token.Faults
import JsClass.Proofs.Token.Followed
import JsClass.Proofs.Token.Spelling
import JsClass.Proofs.TokenContent
import JsClass.Proofs.TokenCover
import JsClass.Proofs.TokenExtension
import JsClass.Proofs.Writing.Basic
import JsClass.Proofs.Writing.Expressions
import JsClass.Proofs.Writing.Functions
import JsClass.Proofs.Writing.Members
import JsClass.Proofs.Writing.Statements
import JsClass.Scope.Basic
import JsClass.Scope.Trace
import JsClass.Session
import JsClass.Source.Identifier
import JsClass.Source.Place
import JsClass.Source.Run
import JsClass.Source.Trivia
import JsClass.Syntax.Fields
import JsClass.Syntax.Listing
import JsClass.Syntax.Node
import JsClass.Syntax.Operator
import JsClass.Syntax.Shape
import JsClass.Text.Blank
import JsClass.Text.CodePoint
import JsClass.Text.Digit
import JsClass.Text.Letter
import JsClass.Text.Pieces
import JsClass.Text.Printable
import JsClass.Text.Quoted
import JsClass.Text.Ranges
import JsClass.Token.Basic
import JsClass.Token.Error
import JsClass.Token.NumberLiteral
import JsClass.Token.Spelling
import JsClass.Token.Split
import JsClass.Token.Stream
import JsClass.Token.StringLiteral
import JsClass.Token.Trie
