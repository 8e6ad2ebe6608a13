import ExprLang.Position
import ExprLang.Parsed
import ExprLang.Text.Escape
import ExprLang.Operator
import ExprLang.Token
import ExprLang.Token.Lexer
import ExprLang.Expr
import ExprLang.Expr.Parser
import ExprLang.Expr.Nodes
import ExprLang.Number.Digits
import ExprLang.Number.Binary
import ExprLang.Number.Shortest
import ExprLang.Number.Layout
import ExprLang.Number.Reading
import ExprLang.Number.Integer
import ExprLang.Double
import ExprLang.Text
import ExprLang.Text.Printable
import ExprLang.Text.Quoted
import ExprLang.Value
import ExprLang.Arity
import ExprLang.Fault
import ExprLang.HostFunction
import ExprLang.Function
import ExprLang.Store.Members
import ExprLang.Store
import ExprLang.Store.Render
import ExprLang.Store.Equality
import ExprLang.Store.Slot
import ExprLang.Engine
import ExprLang.Eval.Monad
import ExprLang.Eval.Compile
import ExprLang.Eval.Operator
import ExprLang.Eval.Literal
import ExprLang.Eval.Interp
import ExprLang.Eval.Form
import ExprLang.Eval.Host
import ExprLang.Console
import ExprLang.Eval.Call
import ExprLang.Eval
import ExprLang.HostData
import ExprLang.Text.DateTime
import ExprLang.Data
import ExprLang.Json.Writer
import ExprLang.Json.Reader
import ExprLang.Cbor.Writer
import ExprLang.Cbor.Reader
import ExprLang.Bindings
import ExprLang.Text.LowerCase
import ExprLang.Text.Blank
import ExprLang.Toml.Scalar
import ExprLang.Toml.Quoted
import ExprLang.Toml.Table
import ExprLang.Toml.Reader
import ExprLang.OutputMode
import ExprLang.Path
import ExprLang.Files
import ExprLang.Config
import ExprLang.Command.Options
import ExprLang.Command.Transcript
import ExprLang.Command.Prompt
import ExprLang.Command.Run
import ExprLang.Main
import ExprLang.Proofs.Nodes
import ExprLang.Proofs.Links
import ExprLang.Proofs.Simulation
import ExprLang.Proofs.Texts
import ExprLang.Proofs.Members
import ExprLang.Proofs.Parts
import ExprLang.Proofs.Simulation.Operations
import ExprLang.Proofs.Simulation.Steps
import ExprLang.Proofs.Monitor
import ExprLang.Proofs.Simulation.Identical
import ExprLang.Proofs.CallDepth
import ExprLang.Proofs.LinkedStores
import ExprLang.Proofs.Rendering
import ExprLang.Proofs.Comparison
import ExprLang.Proofs.Reachability
import ExprLang.Proofs.Simulation.Region
import ExprLang.Proofs.Isolation
import ExprLang.Proofs.Termination
import ExprLang.Proofs.WellFormed
import ExprLang.Proofs.Grammar
import ExprLang.Proofs.Precedence
import ExprLang.Proofs.Quoting
import ExprLang.Proofs.Spelling
import ExprLang.Proofs.Cutting
import ExprLang.Proofs.PlainData
import ExprLang.Proofs.Layout
import ExprLang.Proofs.Denotation
import ExprLang.Proofs.RoundTrip
import ExprLang.Proofs.Lossless
import ExprLang.Proofs.LineBreaks
import ExprLang.Proofs.Refusals
import ExprLang.Proofs.FaultPlaces
import ExprLang.Proofs.SyntaxErrors
import ExprLang.Proofs.Spacing
import ExprLang.Proofs.Encoding
import ExprLang.Proofs.Provenance
import ExprLang.Proofs.Alike
import ExprLang.Proofs.HostValues
import ExprLang.Proofs.CborRoundTrip
import ExprLang.Proofs.Numbers.Rounding
import ExprLang.Proofs.Numbers.Shortest
import ExprLang.Proofs.Numbers.Notation
import ExprLang.Proofs.Numbers.Doubles
import ExprLang.Proofs.JsonReading
import ExprLang.Proofs.JsonRoundTrip
import ExprLang.Proofs.JsonDoubles
import ExprLang.Proofs.CanonicalForm
import ExprLang.Proofs.MapOrder
import ExprLang.Proofs.Sessions
import ExprLang.Proofs.LiteralCache
import ExprLang.Proofs.Growth
import ExprLang.Proofs.Pictures
import ExprLang.Proofs.CompoundAssignment
import ExprLang.Proofs.Forms
import ExprLang.Proofs.Intact
import ExprLang.Proofs.Slots
import ExprLang.Proofs.Snapshots
import ExprLang.Proofs.Equality
import ExprLang.Proofs.Numbers.Digits
import ExprLang.Proofs.Numbers.Division
import ExprLang.Proofs.Escapes
import ExprLang.Proofs.WholeNumbers
import ExprLang.Proofs.Numbers.Powers
import ExprLang.Proofs.Numbers.Shifts
import ExprLang.Proofs.Terminators
import ExprLang.Proofs.KeyTexts
import ExprLang.Proofs.Documents
import ExprLang.Proofs.KeyOrder
import ExprLang.Proofs.Signatures
import ExprLang.Proofs.SymbolLayers
import ExprLang.Proofs.ExitStatus
import ExprLang.Proofs.IndexedReading
