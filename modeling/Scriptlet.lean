import Scriptlet.CommandLine
import Scriptlet.CommandLine.Flag
import Scriptlet.Config
import Scriptlet.Evaluation
import Scriptlet.Fault
import Scriptlet.Files
import Scriptlet.Global
import Scriptlet.History.Journal
import Scriptlet.History.Record
import Scriptlet.History.Store
import Scriptlet.Host
import Scriptlet.Interpreter
import Scriptlet.Json
import Scriptlet.Json.Parser
import Scriptlet.Limits
import Scriptlet.Main
import Scriptlet.Number.Decimal
import Scriptlet.Number.Double
import Scriptlet.Number.Duration
import Scriptlet.Number.Numeral
import Scriptlet.Number.Word
import Scriptlet.ProgramCache
import Scriptlet.Proofs.Arithmetic
import Scriptlet.Proofs.CallDepth
import Scriptlet.Proofs.Conditional
import Scriptlet.Proofs.DeadBranches
import Scriptlet.Proofs.Evaluation
import Scriptlet.Proofs.FaultOrigins
import Scriptlet.Proofs.FrontEnds
import Scriptlet.Proofs.Globals
import Scriptlet.Proofs.Grammar
import Scriptlet.Proofs.Grammar.Complete
import Scriptlet.Proofs.Grammar.Conservation
import Scriptlet.Proofs.Grammar.Descent
import Scriptlet.Proofs.Grammar.Lines
import Scriptlet.Proofs.Grammar.Pieces
import Scriptlet.Proofs.Grammar.Precedence
import Scriptlet.Proofs.Grammar.Sound
import Scriptlet.Proofs.History.Appending
import Scriptlet.Proofs.History.CappedLog
import Scriptlet.Proofs.History.SharedFile
import Scriptlet.Proofs.Interruption
import Scriptlet.Proofs.Invariant
import Scriptlet.Proofs.Json.Extent
import Scriptlet.Proofs.Lexing
import Scriptlet.Proofs.Lexing.Indexed
import Scriptlet.Proofs.Lexing.Lines
import Scriptlet.Proofs.Lexing.Lookahead
import Scriptlet.Proofs.Lexing.Numbers
import Scriptlet.Proofs.Lexing.Quotes
import Scriptlet.Proofs.Lexing.Separators
import Scriptlet.Proofs.Lexing.Tiling
import Scriptlet.Proofs.Marker
import Scriptlet.Proofs.Names
import Scriptlet.Proofs.Number.Decimal
import Scriptlet.Proofs.Number.Document
import Scriptlet.Proofs.Number.Range
import Scriptlet.Proofs.Registry
import Scriptlet.Proofs.Render.Exact
import Scriptlet.Proofs.Render.Proper
import Scriptlet.Proofs.Render.Reread
import Scriptlet.Proofs.Render.Text
import Scriptlet.Proofs.Run
import Scriptlet.Proofs.Scope.Calls
import Scriptlet.Proofs.Scope.WellFormed
import Scriptlet.Proofs.Scope.Writing
import Scriptlet.Proofs.Service
import Scriptlet.Proofs.Service.Tokens
import Scriptlet.Proofs.SharedCache
import Scriptlet.Proofs.Termination
import Scriptlet.Proofs.Timeout
import Scriptlet.Proofs.Unwinding
import Scriptlet.Proofs.Visits
import Scriptlet.Registry
import Scriptlet.Scope
import Scriptlet.Service
import Scriptlet.Service.Message
import Scriptlet.Text.Blank
import Scriptlet.Text.Bytes
import Scriptlet.Text.Case
import Scriptlet.Text.Expansion
import Scriptlet.Text.Printable
import Scriptlet.Text.Quoted
import Scriptlet.Text.Utf8
import Scriptlet.Timestamp
import Scriptlet.Token
import Scriptlet.Token.Lexer
import Scriptlet.Token.Lookahead
import Scriptlet.Tree
import Scriptlet.Tree.Dump
import Scriptlet.Tree.Parser
import Scriptlet.Tree.Render
import Scriptlet.Value
import Scriptlet.Value.Operator
import Scriptlet.Yaml
import Scriptlet.Yaml.Characters
import Scriptlet.Yaml.Cursor
import Scriptlet.Yaml.Parser
import Scriptlet.Yaml.Scalar
import Scriptlet.Yaml.Tag
import Scriptlet.Yaml.Token
import Scriptlet.Yaml.Token.Lexer
