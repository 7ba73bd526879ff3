import OnePass.Binary64.Basic
import OnePass.Binary64.Reading
import OnePass.Binary64.Shortest
import OnePass.Binary64.Writing
import OnePass.Catalog
import OnePass.Code.Basic
import OnePass.Code.Method
import OnePass.Code.Module
import OnePass.Compile
import OnePass.Complaint
import OnePass.Config
import OnePass.Diagnostic
import OnePass.Directory
import OnePass.Event
import OnePass.Host.Registry
import OnePass.Host.Standard
import OnePass.Instr
import OnePass.Literal
import OnePass.Location
import OnePass.Pass.Basic
import OnePass.Pass.Expression
import OnePass.Pass.Program
import OnePass.Pass.Statement
import OnePass.Predeclared
import OnePass.Scope.Symbol
import OnePass.Scope.Table
import OnePass.Session
import OnePass.Text.Blank
import OnePass.Text.Glyph
import OnePass.Text.Quoted
import OnePass.Text.Utf8
import OnePass.Token.Basic
import OnePass.Token.Lexer
import OnePass.Ty
import OnePass.Proofs.Action
import OnePass.Proofs.Tree
import OnePass.Proofs.Parsing
import OnePass.Proofs.Recognition
import OnePass.Proofs.Writing
import OnePass.Proofs.Derivation
import OnePass.Proofs.Methods
import OnePass.Proofs.Finishing
import OnePass.Proofs.Agreement
import OnePass.Proofs.References
import OnePass.Proofs.Linking
import OnePass.Proofs.Validity
import OnePass.Proofs.StackTyping
import OnePass.Proofs.Invariants
import OnePass.Proofs.StackSafety
import OnePass.Proofs.Requests
import OnePass.Proofs.Descent
import OnePass.Proofs.Progress
import OnePass.Proofs.Grammar
import OnePass.Proofs.Acceptance
import OnePass.Proofs.Calls
import OnePass.Proofs.Coupling
import OnePass.Proofs.Lockstep
import OnePass.Proofs.Settings
import OnePass.Proofs.Layout
import OnePass.Proofs.Namespaces
import OnePass.Proofs.LineEnds
import OnePass.Proofs.Pieces
import OnePass.Proofs.Repetition
import OnePass.Proofs.Scopes
import OnePass.Proofs.Growth
import OnePass.Proofs.Environment
import OnePass.Proofs.Jumps
import OnePass.Proofs.Partition
import OnePass.Proofs.Reports
import OnePass.Proofs.Faults
import OnePass.Proofs.Recovery
import OnePass.Proofs.Reporting
import OnePass.Proofs.SourceOrder
import OnePass.Proofs.Declarations
import OnePass.Proofs.Concatenation
import OnePass.Proofs.Histories
import OnePass.Proofs.Naming
import OnePass.Proofs.Promotions
import OnePass.Proofs.Spelling
import OnePass.Proofs.Registrations
import OnePass.Proofs.Returns
import OnePass.Proofs.NamespaceList
