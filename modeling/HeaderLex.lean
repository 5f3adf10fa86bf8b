import HeaderLex.Arena
import HeaderLex.Comment.Basic
import HeaderLex.Comment.Buffer
import HeaderLex.Diagnostic.Code
import HeaderLex.Diagnostic.SourceError
import HeaderLex.Fault
import HeaderLex.Grammar.Constant
import HeaderLex.Grammar.Declaration
import HeaderLex.Grammar.Group
import HeaderLex.Grammar.QualifiedName
import HeaderLex.Grammar.Single
import HeaderLex.Grammar.Specifier
import HeaderLex.Keyword
import HeaderLex.Lexer.Basic
import HeaderLex.Lexer.Cursor
import HeaderLex.Lexer.DirectiveLine
import HeaderLex.Lexer.Gap
import HeaderLex.Lexer.Lexeme
import HeaderLex.Lexer.Metrics
import HeaderLex.Lexer.Operations
import HeaderLex.Lexer.RawText
import HeaderLex.Limits
import HeaderLex.Log.Event
import HeaderLex.Log.Facility
import HeaderLex.Log.Journal
import HeaderLex.Misuse
import HeaderLex.Number.Binary
import HeaderLex.Number.Decimal
import HeaderLex.Number.Word
import HeaderLex.Outcome
import HeaderLex.Parser
import HeaderLex.Position
import HeaderLex.Preprocessor.Basic
import HeaderLex.Preprocessor.Conditional
import HeaderLex.Preprocessor.Directive
import HeaderLex.Preprocessor.IllegalContents
import HeaderLex.Proofs.Gap
import HeaderLex.Replay
import HeaderLex.Settings.Config
import HeaderLex.Settings.Preferences
import HeaderLex.Settings.Toml.Basic
import HeaderLex.Settings.Toml.Document
import HeaderLex.Settings.Toml.Item
import HeaderLex.Settings.Toml.Moment
import HeaderLex.Settings.Toml.Numeral
import HeaderLex.Settings.Toml.Quoted
import HeaderLex.SourceMap
import HeaderLex.Stream
import HeaderLex.Text.Blank
import HeaderLex.Text.Utf8
import HeaderLex.Token.Basic
import HeaderLex.Token.Decode
import HeaderLex.Token.Kind
import HeaderLex.Proofs.Cursor
import HeaderLex.Proofs.Lossless
import HeaderLex.Proofs.Lookahead
import HeaderLex.Proofs.Invariant
import HeaderLex.Proofs.DirectiveLine
import HeaderLex.Proofs.Reading
import HeaderLex.Proofs.Locality
import HeaderLex.Proofs.Code
import HeaderLex.Proofs.Document
import HeaderLex.Proofs.Run
import HeaderLex.Proofs.Refusals
import HeaderLex.Proofs.Exclusion
import HeaderLex.Proofs.DirectiveTokens
import HeaderLex.Proofs.Backtracking
import HeaderLex.Proofs.LineNumbers
import HeaderLex.Proofs.Condition
import HeaderLex.Proofs.Verdicts
import HeaderLex.Proofs.Balance
import HeaderLex.Proofs.PutBack
import HeaderLex.Proofs.LineEndings
import HeaderLex.Proofs.CarriageReturns
import HeaderLex.Proofs.Replaying
import HeaderLex.Proofs.Crashes
import HeaderLex.Proofs.Yield
import HeaderLex.Proofs.Joining
import HeaderLex.Proofs.Printing
import HeaderLex.Proofs.Recording
import HeaderLex.Proofs.Stranding
import HeaderLex.Proofs.ScannerLog
import HeaderLex.Proofs.ErrorLog
import HeaderLex.Proofs.Progress
import HeaderLex.Proofs.TokenLists
import HeaderLex.Proofs.Generations
import HeaderLex.Proofs.StaleLists
import HeaderLex.Proofs.Nesting
import HeaderLex.Proofs.Execution
import HeaderLex.Proofs.ListForms
import HeaderLex.Proofs.IllegalContents
import HeaderLex.Proofs.Indifference
import HeaderLex.Proofs.Consumption
import HeaderLex.Proofs.Extent
import HeaderLex.Proofs.LexicalCauses
import HeaderLex.Proofs.SkipTurns
import HeaderLex.Proofs.SkippedDeclarations
import HeaderLex.Proofs.Numerals
import HeaderLex.Proofs.IntegerValues
import HeaderLex.Proofs.SignedConstants
import HeaderLex.Proofs.SignFolding
import HeaderLex.Proofs.Attribution
import HeaderLex.Proofs.ErrorOrigins
import HeaderLex.Proofs.HandedOut
import HeaderLex.Proofs.IntegerTokens
import HeaderLex.Proofs.Rounding
import HeaderLex.Proofs.WholeFractions
import HeaderLex.Proofs.StringLiterals
import HeaderLex.Proofs.LiteralBodies
import HeaderLex.Proofs.LengthLimits
import HeaderLex.Proofs.Acceptance
import HeaderLex.Proofs.AcceptedLists
import HeaderLex.Proofs.BalancedGroups
import HeaderLex.Proofs.Collecting
import HeaderLex.Proofs.QualifiedNames
import HeaderLex.Proofs.RawTexts
import HeaderLex.Proofs.SourceMaps
import HeaderLex.Proofs.OpenConditionals
import HeaderLex.Proofs.SkippedMarkup
import HeaderLex.Proofs.ErrorPlaces
import HeaderLex.Proofs.Rendering
import HeaderLex.Proofs.SpecifierForms
