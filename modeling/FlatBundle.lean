import FlatBundle.Bundle.Build
import FlatBundle.Bundle.Join
import FlatBundle.Bundle.Loader
import FlatBundle.Bundle.Placement
import FlatBundle.Bundle.Wrapper
import FlatBundle.CommandLine
import FlatBundle.Distinct
import FlatBundle.Edit.Apply
import FlatBundle.Edit.Basic
import FlatBundle.Error
import FlatBundle.Json.Decimal
import FlatBundle.Json.Reader
import FlatBundle.Json.Value
import FlatBundle.Link.Cycles
import FlatBundle.Link.Facts
import FlatBundle.Link.Linked
import FlatBundle.Link.Names
import FlatBundle.Link.OnDemand
import FlatBundle.Link.Order
import FlatBundle.Main
import FlatBundle.Options
import FlatBundle.Proofs.Bundle.Build
import FlatBundle.Proofs.Bundle.Capture
import FlatBundle.Proofs.Bundle.Debug
import FlatBundle.Proofs.Bundle.Declarator
import FlatBundle.Proofs.Bundle.EditSites
import FlatBundle.Proofs.Bundle.Emission
import FlatBundle.Proofs.Bundle.EmittedScript
import FlatBundle.Proofs.Bundle.ExportsVariable
import FlatBundle.Proofs.Bundle.GeneratedNames
import FlatBundle.Proofs.Bundle.Inlining
import FlatBundle.Proofs.Bundle.JoinedMap
import FlatBundle.Proofs.Bundle.Joining
import FlatBundle.Proofs.Bundle.KeptNames
import FlatBundle.Proofs.Bundle.Lines
import FlatBundle.Proofs.Bundle.Mapping
import FlatBundle.Proofs.Bundle.Outward
import FlatBundle.Proofs.Bundle.OwnReturns
import FlatBundle.Proofs.Bundle.Pieces
import FlatBundle.Proofs.Bundle.Placement
import FlatBundle.Proofs.Bundle.Removal
import FlatBundle.Proofs.Bundle.Renaming
import FlatBundle.Proofs.Bundle.Reorder
import FlatBundle.Proofs.Bundle.RequireName
import FlatBundle.Proofs.Bundle.Requirements
import FlatBundle.Proofs.Bundle.Rewriting
import FlatBundle.Proofs.Bundle.Spelling
import FlatBundle.Proofs.Bundle.Statements
import FlatBundle.Proofs.Bundle.UnusedName
import FlatBundle.Proofs.Distinct
import FlatBundle.Proofs.Edit.Apply
import FlatBundle.Proofs.Edit.Laminar
import FlatBundle.Proofs.Edit.Outcome
import FlatBundle.Proofs.Edit.Refusal
import FlatBundle.Proofs.Edit.Resolve
import FlatBundle.Proofs.Edit.Splicing
import FlatBundle.Proofs.Json.Extent
import FlatBundle.Proofs.Json.Reader
import FlatBundle.Proofs.Link.CyclePaths
import FlatBundle.Proofs.Link.CycleWarning
import FlatBundle.Proofs.Link.Cycles
import FlatBundle.Proofs.Link.Dependency
import FlatBundle.Proofs.Link.DepthFirst
import FlatBundle.Proofs.Link.ExportsName
import FlatBundle.Proofs.Link.Facts
import FlatBundle.Proofs.Link.Names
import FlatBundle.Proofs.Link.OnDemand
import FlatBundle.Proofs.Link.Order
import FlatBundle.Proofs.Link.Postorder
import FlatBundle.Proofs.Link.Rearranged
import FlatBundle.Proofs.Link.Reindex
import FlatBundle.Proofs.Link.Repeats
import FlatBundle.Proofs.Link.Search
import FlatBundle.Proofs.Link.Walk
import FlatBundle.Proofs.Record.Ranking
import FlatBundle.Proofs.Record.Reindex
import FlatBundle.Proofs.Record.Restored
import FlatBundle.Proofs.Record.Sequence
import FlatBundle.Proofs.Record.Specifiers
import FlatBundle.Proofs.Record.Table
import FlatBundle.Proofs.Scope.Analysis
import FlatBundle.Proofs.Scope.BothWays
import FlatBundle.Proofs.Scope.Calls
import FlatBundle.Proofs.Scope.Declarations
import FlatBundle.Proofs.Scope.Declarator
import FlatBundle.Proofs.Scope.Declaring
import FlatBundle.Proofs.Scope.Deferred
import FlatBundle.Proofs.Scope.LateCalls
import FlatBundle.Proofs.Scope.Lookups
import FlatBundle.Proofs.Scope.NameSpans
import FlatBundle.Proofs.Scope.Occurrences
import FlatBundle.Proofs.Scope.Path
import FlatBundle.Proofs.Scope.Recorded
import FlatBundle.Proofs.Scope.Replay
import FlatBundle.Proofs.Scope.Resolving
import FlatBundle.Proofs.Scope.Shorthand
import FlatBundle.Proofs.Scope.Spots
import FlatBundle.Proofs.Scope.Trail
import FlatBundle.Proofs.Scope.Tree
import FlatBundle.Proofs.Scope.Visit
import FlatBundle.Proofs.Script.Binding
import FlatBundle.Proofs.Script.Boundary
import FlatBundle.Proofs.Script.Class
import FlatBundle.Proofs.Script.Ends
import FlatBundle.Proofs.Script.Expression
import FlatBundle.Proofs.Script.Formed
import FlatBundle.Proofs.Script.FormedProgram
import FlatBundle.Proofs.Script.Gap
import FlatBundle.Proofs.Script.Layout
import FlatBundle.Proofs.Script.Lexer
import FlatBundle.Proofs.Script.LineEnd
import FlatBundle.Proofs.Script.Place
import FlatBundle.Proofs.Script.Program
import FlatBundle.Proofs.Script.Reader
import FlatBundle.Proofs.Script.Statement
import FlatBundle.Proofs.Script.Target
import FlatBundle.Proofs.Script.Word
import FlatBundle.Proofs.SourceMap.Attribution
import FlatBundle.Proofs.SourceMap.Comment
import FlatBundle.Proofs.SourceMap.Cursor
import FlatBundle.Proofs.SourceMap.Lookup
import FlatBundle.Proofs.SourceMap.Mappings
import FlatBundle.Proofs.SourceMap.RoundTrip
import FlatBundle.Proofs.Text.Base64
import FlatBundle.Proofs.Text.Column
import FlatBundle.Proofs.Text.Identifier
import FlatBundle.Proofs.Text.Nearest
import FlatBundle.Proofs.Text.Position
import FlatBundle.Record.Basic
import FlatBundle.Record.Id
import FlatBundle.Record.Reading
import FlatBundle.Record.Table
import FlatBundle.Scope.Analysis
import FlatBundle.Scope.Tree
import FlatBundle.Scope.Visit
import FlatBundle.Script.Binding
import FlatBundle.Script.Class
import FlatBundle.Script.Escape
import FlatBundle.Script.Expression
import FlatBundle.Script.Function
import FlatBundle.Script.Lexer
import FlatBundle.Script.ModuleItem
import FlatBundle.Script.Names
import FlatBundle.Script.Program
import FlatBundle.Script.Reader
import FlatBundle.Script.Statement
import FlatBundle.Script.Target
import FlatBundle.Script.Token
import FlatBundle.Script.Tree
import FlatBundle.Script.Trivia
import FlatBundle.SourceMap.Basic
import FlatBundle.SourceMap.Comment
import FlatBundle.SourceMap.Text
import FlatBundle.SourceMap.Vlq
import FlatBundle.Text.Base64
import FlatBundle.Text.Blank
import FlatBundle.Text.Identifier
import FlatBundle.Text.IdentifierTable
import FlatBundle.Text.Path
import FlatBundle.Text.Position
import FlatBundle.Text.Quoted
import FlatBundle.Text.Split
import FlatBundle.Text.UppercaseTable
