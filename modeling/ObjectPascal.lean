import ObjectPascal.Annotations
import ObjectPascal.Binding.Basic
import ObjectPascal.Binding.Declaration
import ObjectPascal.Binding.Name
import ObjectPascal.Binding.Statement
import ObjectPascal.Breach
import ObjectPascal.Closure
import ObjectPascal.Complaint
import ObjectPascal.Constant.Basic
import ObjectPascal.Constant.Operation
import ObjectPascal.Decimal.Double
import ObjectPascal.Decimal.Read
import ObjectPascal.Dialect.Config
import ObjectPascal.Dialect.Indented
import ObjectPascal.Dialect.Load
import ObjectPascal.Dialect.Version
import ObjectPascal.Folding.Basic
import ObjectPascal.Folding.Fold
import ObjectPascal.Grammar.Automaton
import ObjectPascal.Grammar.Basic
import ObjectPascal.Grammar.Bracketed
import ObjectPascal.Grammar.First
import ObjectPascal.Grammar.Lookahead
import ObjectPascal.Grammar.Machine
import ObjectPascal.Grammar.Table
import ObjectPascal.Main
import ObjectPascal.Parse
import ObjectPascal.Proofs.Annotations
import ObjectPascal.Proofs.Binding.Accounts
import ObjectPascal.Proofs.Binding.Fields
import ObjectPascal.Proofs.Binding.Homes
import ObjectPascal.Proofs.Binding.Inside
import ObjectPascal.Proofs.Binding.Labels
import ObjectPascal.Proofs.Binding.Later
import ObjectPascal.Proofs.Binding.Level
import ObjectPascal.Proofs.Binding.Marks
import ObjectPascal.Proofs.Binding.Names
import ObjectPascal.Proofs.Binding.Neutral
import ObjectPascal.Proofs.Binding.NonLocal
import ObjectPascal.Proofs.Binding.Orderly
import ObjectPascal.Proofs.Binding.Overloads
import ObjectPascal.Proofs.Binding.Owners
import ObjectPascal.Proofs.Binding.Promise
import ObjectPascal.Proofs.Binding.Reads
import ObjectPascal.Proofs.Binding.Report
import ObjectPascal.Proofs.Binding.Results
import ObjectPascal.Proofs.Binding.Still
import ObjectPascal.Proofs.Binding.Strictness
import ObjectPascal.Proofs.Binding.Touches
import ObjectPascal.Proofs.Binding.Upkeep
import ObjectPascal.Proofs.Closure.Captures
import ObjectPascal.Proofs.Closure.Fresh
import ObjectPascal.Proofs.Closure.Nesting
import ObjectPascal.Proofs.Closure.Passing
import ObjectPascal.Proofs.Constant
import ObjectPascal.Proofs.Effect
import ObjectPascal.Proofs.Folding
import ObjectPascal.Proofs.Folding.Circular
import ObjectPascal.Proofs.Folding.Comparison
import ObjectPascal.Proofs.Folding.Depth
import ObjectPascal.Proofs.Folding.Evaluation
import ObjectPascal.Proofs.Folding.Exact
import ObjectPascal.Proofs.Folding.Independence
import ObjectPascal.Proofs.Folding.Meaning
import ObjectPascal.Proofs.Folding.Order
import ObjectPascal.Proofs.Folding.Replay
import ObjectPascal.Proofs.Folding.Texts
import ObjectPascal.Proofs.Grammar.Ambiguity
import ObjectPascal.Proofs.Grammar.Attachment
import ObjectPascal.Proofs.Grammar.Cells
import ObjectPascal.Proofs.Grammar.Closure
import ObjectPascal.Proofs.Grammar.Collection
import ObjectPascal.Proofs.Grammar.Completeness
import ObjectPascal.Proofs.Grammar.Conflicts
import ObjectPascal.Proofs.Grammar.Decisions
import ObjectPascal.Proofs.Grammar.Defaults
import ObjectPascal.Proofs.Grammar.Derivation
import ObjectPascal.Proofs.Grammar.Exactness
import ObjectPascal.Proofs.Grammar.First
import ObjectPascal.Proofs.Grammar.Growth
import ObjectPascal.Proofs.Grammar.Guidance
import ObjectPascal.Proofs.Grammar.Lookahead
import ObjectPascal.Proofs.Grammar.Nonassociativity
import ObjectPascal.Proofs.Grammar.Precedence
import ObjectPascal.Proofs.Grammar.Propagation
import ObjectPascal.Proofs.Grammar.Reading
import ObjectPascal.Proofs.Grammar.Recursion
import ObjectPascal.Proofs.Grammar.Reports
import ObjectPascal.Proofs.Grammar.Runs
import ObjectPascal.Proofs.Grammar.Soundness
import ObjectPascal.Proofs.Grammar.Stack
import ObjectPascal.Proofs.Grammar.Termination
import ObjectPascal.Proofs.Grammar.ViablePrefix
import ObjectPascal.Proofs.Kind
import ObjectPascal.Proofs.Rule.Arrangement
import ObjectPascal.Proofs.Rule.Composites
import ObjectPascal.Proofs.Rule.Construct
import ObjectPascal.Proofs.Rule.Dialect
import ObjectPascal.Proofs.Rule.Ending
import ObjectPascal.Proofs.Rule.Identity
import ObjectPascal.Proofs.Rule.Layout
import ObjectPascal.Proofs.Rule.Lines
import ObjectPascal.Proofs.Rule.Numbering
import ObjectPascal.Proofs.Rule.Pieces
import ObjectPascal.Proofs.Rule.Placement
import ObjectPascal.Proofs.Rule.Precedence
import ObjectPascal.Proofs.Rule.Provenance
import ObjectPascal.Proofs.Rule.SourceOrder
import ObjectPascal.Proofs.Rule.Termination
import ObjectPascal.Proofs.Rule.Typing
import ObjectPascal.Proofs.Saturation
import ObjectPascal.Proofs.Scope.Builtin
import ObjectPascal.Proofs.Scope.Contents
import ObjectPascal.Proofs.Scope.Fields
import ObjectPascal.Proofs.Scope.Heritage
import ObjectPascal.Proofs.Scope.Inheritance
import ObjectPascal.Proofs.Scope.Level
import ObjectPascal.Proofs.Scope.Loading
import ObjectPascal.Proofs.Scope.Operation
import ObjectPascal.Proofs.Scope.Search
import ObjectPascal.Proofs.Scope.Shadowing
import ObjectPascal.Proofs.Scope.Strictness
import ObjectPascal.Proofs.Scope.Variables
import ObjectPascal.Proofs.Syntax.Reach
import ObjectPascal.Proofs.Syntax.Walk
import ObjectPascal.Proofs.Text
import ObjectPascal.Proofs.Token.Account
import ObjectPascal.Proofs.Token.Block
import ObjectPascal.Proofs.Token.Cursor
import ObjectPascal.Proofs.Token.Extent
import ObjectPascal.Proofs.Token.Freestanding
import ObjectPascal.Proofs.Token.Layout
import ObjectPascal.Proofs.Token.Lexeme
import ObjectPascal.Proofs.Token.Literal
import ObjectPascal.Proofs.Token.Locality
import ObjectPascal.Proofs.Token.Position
import ObjectPascal.Proofs.Token.Source
import ObjectPascal.Proofs.Token.Spelling
import ObjectPascal.Proofs.Token.Stretch
import ObjectPascal.Rule.Build
import ObjectPascal.Rule.Expressions
import ObjectPascal.Rule.Goals
import ObjectPascal.Rule.Members
import ObjectPascal.Rule.Phrase
import ObjectPascal.Rule.Routines
import ObjectPascal.Rule.Sections
import ObjectPascal.Rule.Shape
import ObjectPascal.Rule.Statements
import ObjectPascal.Rule.Types
import ObjectPascal.Scope.Basic
import ObjectPascal.Scope.Builtin
import ObjectPascal.Scope.Fetch
import ObjectPascal.Scope.Frame
import ObjectPascal.Scope.Heritage
import ObjectPascal.Settings.Basic
import ObjectPascal.Settings.Toml
import ObjectPascal.Settings.Toml.Draft
import ObjectPascal.Settings.Toml.Scalar
import ObjectPascal.Settings.Yaml.Cursor
import ObjectPascal.Settings.Yaml.Meaning
import ObjectPascal.Settings.Yaml.Node
import ObjectPascal.Settings.Yaml.Property
import ObjectPascal.Settings.Yaml.Scalar
import ObjectPascal.Settings.Yaml.Stream
import ObjectPascal.Syntax.Decl
import ObjectPascal.Syntax.Expr
import ObjectPascal.Syntax.Node
import ObjectPascal.Syntax.Operator
import ObjectPascal.Syntax.Outline
import ObjectPascal.Syntax.Stmt
import ObjectPascal.Syntax.Walk
import ObjectPascal.Text.Basic
import ObjectPascal.Text.Case
import ObjectPascal.Text.CaseTable
import ObjectPascal.Text.Graphic
import ObjectPascal.Text.Quoted
import ObjectPascal.Token.Basic
import ObjectPascal.Token.Cursor
import ObjectPascal.Token.Kind
import ObjectPascal.Token.Lexeme
import ObjectPascal.Token.Scanner
import ObjectPascal.Tool.Completion
import ObjectPascal.Tool.Dump
import ObjectPascal.Tool.Folder
import ObjectPascal.Tool.Options
import ObjectPascal.Tool.Run
