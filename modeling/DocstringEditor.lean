import DocstringEditor.Text.Lines
import DocstringEditor.Text.LineEnding
import DocstringEditor.Text.Identifier
import DocstringEditor.Position
import DocstringEditor.Syntax.Tree
import DocstringEditor.Syntax.Layout
import DocstringEditor.Syntax.Lexer
import DocstringEditor.Syntax.StringLiteral
import DocstringEditor.Syntax.Display
import DocstringEditor.Syntax.Operand
import DocstringEditor.Syntax.Expression
import DocstringEditor.Syntax.SimpleStatement
import DocstringEditor.Syntax.Statement
import DocstringEditor.Syntax.Module
import DocstringEditor.Header
import DocstringEditor.Analysis.Source
import DocstringEditor.Analysis.Registry
import DocstringEditor.Request
import DocstringEditor.Json.Reader
import DocstringEditor.Json.Decoder
import DocstringEditor.Wire.Entity
import DocstringEditor.Wire.Request
import DocstringEditor.Server.Router
import DocstringEditor.Toml.Key
import DocstringEditor.Toml.Number
import DocstringEditor.Toml.Reader
import DocstringEditor.CommandLine.Options
import DocstringEditor.CommandLine.Arguments
import DocstringEditor.CommandLine.Files
import DocstringEditor.CommandLine.Address
import DocstringEditor.CommandLine.Config
import DocstringEditor.CommandLine.Run
import DocstringEditor.Main
import DocstringEditor.Proofs.Outcome
import DocstringEditor.Proofs.Text.Lines
import DocstringEditor.Proofs.Text.Pattern
import DocstringEditor.Proofs.Text.Terminated
import DocstringEditor.Proofs.Syntax.Span
import DocstringEditor.Proofs.Syntax.Place
import DocstringEditor.Proofs.Syntax.Gap
import DocstringEditor.Proofs.Syntax.Legible
import DocstringEditor.Proofs.Syntax.Laid
import DocstringEditor.Proofs.Syntax.Token
import DocstringEditor.Proofs.Syntax.Yields
import DocstringEditor.Proofs.Syntax.LegibleExpression
import DocstringEditor.Proofs.Syntax.StringLiteral
import DocstringEditor.Proofs.Syntax.Expression
import DocstringEditor.Proofs.Syntax.SimpleStatement
import DocstringEditor.Proofs.Syntax.Statement
import DocstringEditor.Proofs.Syntax.Module
import DocstringEditor.Proofs.Syntax.Leaf
import DocstringEditor.Proofs.Syntax.Ending
import DocstringEditor.Proofs.Analysis.Cursor
import DocstringEditor.Proofs.Analysis.ScopeTable
import DocstringEditor.Proofs.Analysis.Innermost
import DocstringEditor.Proofs.Docstring.Offset
import DocstringEditor.Proofs.Analysis.Segment
import DocstringEditor.Proofs.Analysis.Excerpt
import DocstringEditor.Proofs.Analysis.Query
import DocstringEditor.Proofs.Analysis.Parity
import DocstringEditor.Proofs.Analysis.Answer
import DocstringEditor.Proofs.Analysis.DocstringLiteral
import DocstringEditor.Proofs.Analysis.Columns
import DocstringEditor.Proofs.Analysis.ScopePath
import DocstringEditor.Proofs.Analysis.Fault
import DocstringEditor.Proofs.Analysis.Registry
import DocstringEditor.Proofs.Cleaning.Present
import DocstringEditor.Proofs.Cleaning.Kept
import DocstringEditor.Proofs.Cleaning.Passes
import DocstringEditor.Proofs.Docstring.Edit
import DocstringEditor.Proofs.Docstring.Apply
import DocstringEditor.Proofs.Docstring.Placement
import DocstringEditor.Proofs.Docstring.Quoted
import DocstringEditor.Proofs.Docstring.Noise
import DocstringEditor.Proofs.Docstring.Body
import DocstringEditor.Proofs.Json.Decoder
import DocstringEditor.Proofs.Wire.Entity
import DocstringEditor.Proofs.Json.Reader
import DocstringEditor.Proofs.Wire.Request
import DocstringEditor.Proofs.Server.Router
import DocstringEditor.Proofs.CommandLine.Daemon
import DocstringEditor.Proofs.CommandLine.Defaults
import DocstringEditor.Proofs.CommandLine.Written
import DocstringEditor.Proofs.Docstring.Complete
import DocstringEditor.Proofs.Header.Item
import DocstringEditor.Proofs.Text.LineEnding
import DocstringEditor.Proofs.Docstring.RoundTrip
import DocstringEditor.Proofs.Header.Escape
import DocstringEditor.Proofs.Header.Scan
import DocstringEditor.Proofs.Header.LineEnding
import DocstringEditor.Proofs.Docstring.Repeat
import DocstringEditor.Proofs.Docstring.LineEnding
import DocstringEditor.Proofs.Cleaning.LineEnding
import DocstringEditor.Proofs.Cleaning.Skipped
import DocstringEditor.Proofs.Docstring.Level
import DocstringEditor.Proofs.Header.Colon
import DocstringEditor.Proofs.Analysis.Graft
import DocstringEditor.Proofs.Analysis.Lexing
import DocstringEditor.Proofs.Docstring.Removal
import DocstringEditor.Proofs.Analysis.HeaderRows
import DocstringEditor.Proofs.Analysis.Offside
import DocstringEditor.Proofs.Docstring.Resolved
