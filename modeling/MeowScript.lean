import MeowScript.Text.Position
import MeowScript.Text.Blank
import MeowScript.Text.Unprintable
import MeowScript.Text.Quoted
import MeowScript.Text.Cluster
import MeowScript.Number.Decimal
import MeowScript.Number.Binary64
import MeowScript.Number.Shortest
import MeowScript.Ty
import MeowScript.Operator
import MeowScript.Located
import MeowScript.Token.Basic
import MeowScript.Token.Scan
import MeowScript.Tree.Basic
import MeowScript.Grammar.Chain
import MeowScript.Grammar.Attempt
import MeowScript.Grammar.Expression
import MeowScript.Grammar.Statement
import MeowScript.Grammar.Program
import MeowScript.Grammar.Cursor
import MeowScript.Tree.Outline
import MeowScript.Scope.Symbol
import MeowScript.Scope.Stack
import MeowScript.Check.Fault
import MeowScript.Check.Typing
import MeowScript.Check.Expression
import MeowScript.Check.Statement
import MeowScript.Code.Instr
import MeowScript.Code.Lower
import MeowScript.Log
import MeowScript.Diagnostic
import MeowScript.Compilation
import MeowScript.Session.Basic
import MeowScript.Session.Pending
import MeowScript.Session.Editor
import MeowScript.Session.Typed
import MeowScript.Command.Options
import MeowScript.Command.Files
import MeowScript.Command.Report
import MeowScript.Command.Host
import MeowScript.Help
import MeowScript.Session.Dialogue
import MeowScript.Command.Run
import MeowScript.Main
import MeowScript.Proofs.Meaning.Tree
import MeowScript.Proofs.Meaning.Machine
import MeowScript.Proofs.Meaning.Numbering
import MeowScript.Proofs.Meaning.Lowering
import MeowScript.Proofs.Grammar.Derivation
import MeowScript.Proofs.Grammar.Precedence
import MeowScript.Proofs.Grammar.Reading
import MeowScript.Proofs.Grammar.Soundness
import MeowScript.Proofs.Grammar.Completeness
import MeowScript.Proofs.Grammar.Exact
import MeowScript.Proofs.Grammar.Readings
import MeowScript.Proofs.Lexing.Contents
import MeowScript.Proofs.Lexing.Lines
import MeowScript.Proofs.Lexing.Rules
import MeowScript.Proofs.Lexing.Split
import MeowScript.Proofs.Lexing.Exact
import MeowScript.Proofs.Lexing.Joined
import MeowScript.Proofs.Lexing.Constants
import MeowScript.Proofs.Naming.Words
import MeowScript.Proofs.Naming.Fresh
import MeowScript.Proofs.Naming.Renaming
import MeowScript.Proofs.Naming.Leaves
import MeowScript.Proofs.Naming.Listing
import MeowScript.Proofs.Number.Value
import MeowScript.Proofs.Number.Distinct
import MeowScript.Proofs.Listing.Cells
import MeowScript.Proofs.Listing.Operands
import MeowScript.Proofs.Listing.Determined
import MeowScript.Proofs.Typing.Rules
import MeowScript.Proofs.Typing.Checked
import MeowScript.Proofs.Typing.Annotations
import MeowScript.Proofs.Typing.Unknown
import MeowScript.Proofs.Scoping.Rules
import MeowScript.Proofs.Scoping.Exact
import MeowScript.Proofs.Scoping.Undeclared
import MeowScript.Proofs.Scoping.Places
import MeowScript.Proofs.Scoping.History
import MeowScript.Proofs.Calls.Resolution
import MeowScript.Proofs.Calls.Callees
import MeowScript.Proofs.Growth.Extension
import MeowScript.Proofs.Growth.Continuation
import MeowScript.Proofs.Growth.Change
import MeowScript.Proofs.Growth.Session
import MeowScript.Proofs.Layout.Gaps
import MeowScript.Proofs.Layout.Parsing
import MeowScript.Proofs.Layout.Checking
import MeowScript.Proofs.Layout.Exact
import MeowScript.Proofs.Prefix.Deciding
import MeowScript.Proofs.Prefix.Phrases
import MeowScript.Proofs.Prefix.FirstFault
import MeowScript.Proofs.Progress.Forward
import MeowScript.Proofs.Progress.Stream
import MeowScript.Proofs.Cursor.Runs
import MeowScript.Proofs.Cursor.Expression
import MeowScript.Proofs.Cursor.Statement
import MeowScript.Proofs.Cursor.Program
import MeowScript.Proofs.Progress.Calls
import MeowScript.Proofs.Shape.Labels
import MeowScript.Proofs.Shape.Nesting
import MeowScript.Proofs.Evaluation.Order
import MeowScript.Proofs.Dialogue.Kept
import MeowScript.Proofs.Drivers.Editor
import MeowScript.Proofs.Drivers.Agreement
import MeowScript.Proofs.Drivers.Offset
import MeowScript.Proofs.Returns.Coverage
import MeowScript.Proofs.Settling.States
import MeowScript.Proofs.Pending.Braces
import MeowScript.Proofs.Pending.Record
import MeowScript.Proofs.Recovery.Segments
import MeowScript.Proofs.Places.Increasing
import MeowScript.Proofs.Progress.Ordered
import MeowScript.Proofs.Progress.Again
import MeowScript.Proofs.Command.Groups
import MeowScript.Proofs.Outline.Quoted
import MeowScript.Proofs.Outline.Sketch
import MeowScript.Proofs.Outline.Labels
import MeowScript.Proofs.Outline.Determined
