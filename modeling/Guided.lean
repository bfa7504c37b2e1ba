import Guided.Cache.Disk
import Guided.Cache.Key
import Guided.Cache.Persistent
import Guided.Cache.Results
import Guided.CallKey
import Guided.Command.Arguments
import Guided.Command.Run
import Guided.Constraint.Basic
import Guided.Constraint.Evaluation
import Guided.Constraint.Postprocess
import Guided.Constraint.Traversal
import Guided.Decimal.Binary
import Guided.Decimal.Shortest
import Guided.Decimal.Word
import Guided.Engine.Run
import Guided.Engine.Settle
import Guided.Error
import Guided.Fields
import Guided.Json.Reader
import Guided.Json.Tree
import Guided.Main
import Guided.Pattern.Automaton
import Guided.Pattern.AutomatonSize
import Guided.Pattern.Basic
import Guided.Pattern.Derivative
import Guided.Pattern.Escape
import Guided.Pattern.Fault
import Guided.Pattern.FullMatch
import Guided.Pattern.Language
import Guided.Pattern.Limits
import Guided.Pattern.Marks
import Guided.Pattern.Parser
import Guided.Pattern.Printer
import Guided.Pattern.Regex
import Guided.Pattern.Simplify
import Guided.Program.State
import Guided.Query.Basic
import Guided.Query.Binding
import Guided.Query.Scripted
import Guided.Request.Promise
import Guided.Request.Scheduler
import Guided.Stream.Client
import Guided.Stream.Event
import Guided.Stream.Frame
import Guided.Text.Blank
import Guided.Text.Bytes
import Guided.Text.Hex
import Guided.Text.Printable
import Guided.Text.Quoted
import Guided.Text.Utf8
import Guided.Text.Utf8Ranges
import Guided.Token.Backend
import Guided.Token.Incremental
import Guided.Token.Special
import Guided.Token.Tables
import Guided.Token.Tokenizer
import Guided.Value.Arranged
import Guided.Value.Basic
import Guided.Value.Decode
import Guided.Value.Outline
import Guided.Value.Printer
import Guided.Proofs.Pattern.Derivative
import Guided.Proofs.Pattern.Simplify
import Guided.Proofs.Pattern.Marks
import Guided.Proofs.Pattern.Reading
import Guided.Proofs.Pattern.Grammar
import Guided.Proofs.Pattern.Classes
import Guided.Proofs.Pattern.Quantifiers
import Guided.Proofs.Pattern.Refusals
import Guided.Proofs.Pattern.Spelling
import Guided.Proofs.Pattern.Residual
import Guided.Proofs.Pattern.NormalForm
import Guided.Proofs.Pattern.Shape
import Guided.Proofs.Pattern.Printing
import Guided.Proofs.Pattern.Rereading
import Guided.Proofs.Pattern.RoundTrip
import Guided.Proofs.Pattern.Rejection
import Guided.Proofs.Pattern.Redexes
import Guided.Proofs.Pattern.Terminals
import Guided.Proofs.Text.Utf8
import Guided.Proofs.Text.Utf8Ranges
import Guided.Proofs.Pattern.Extent
import Guided.Proofs.Pattern.Sharing
import Guided.Proofs.Pattern.Budget
import Guided.Proofs.Pattern.Nesting
import Guided.Proofs.Pattern.Assembling
import Guided.Proofs.Pattern.Finiteness
import Guided.Proofs.Pattern.HexEscapes
import Guided.Proofs.Token.Tokenizer
import Guided.Proofs.Token.Incremental
import Guided.Proofs.Token.Histories
import Guided.Proofs.Token.Special
import Guided.Proofs.Constraint.Construction
import Guided.Proofs.Constraint.Evaluation
import Guided.Proofs.Constraint.Following
import Guided.Proofs.Constraint.Splicing
import Guided.Proofs.Program.Updates
import Guided.Proofs.Constraint.Satisfaction
import Guided.Proofs.Constraint.Verdict
import Guided.Proofs.Constraint.Viability
import Guided.Proofs.Constraint.Postprocess
import Guided.Proofs.Constraint.Finishing
import Guided.Proofs.Engine.Run
import Guided.Proofs.Engine.Scan
import Guided.Proofs.Command.Check
import Guided.Proofs.Constraint.Asking
import Guided.Proofs.Constraint.Settling
import Guided.Proofs.Engine.Log
import Guided.Proofs.Engine.Simulation
import Guided.Proofs.Engine.Interference
import Guided.Proofs.Constraint.Waiting
import Guided.Proofs.Engine.Delay
import Guided.Proofs.Constraint.Listing
import Guided.Proofs.Constraint.Registering
import Guided.Proofs.Engine.Discarding
import Guided.Proofs.Stream.Connection
import Guided.Proofs.Stream.Closing
import Guided.Proofs.Stream.Demultiplexing
import Guided.Proofs.Value.Writing
import Guided.Proofs.Cache.Key
import Guided.Proofs.Cache.Calls
import Guided.Proofs.Request.Caching
import Guided.Proofs.Fields
import Guided.Proofs.Query.Binding
import Guided.Proofs.Value.Arranged
import Guided.Proofs.Value.Decoding
import Guided.Proofs.Cache.Storage
import Guided.Proofs.Cache.History
import Guided.Proofs.Request.Interleaving
import Guided.Proofs.Request.Ownership
