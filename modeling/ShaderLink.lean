import ShaderLink.Conditional
import ShaderLink.Fault
import ShaderLink.Grammar.Body
import ShaderLink.Grammar.Error
import ShaderLink.Grammar.Note
import ShaderLink.Grammar.Parser
import ShaderLink.Import.Syntax
import ShaderLink.Import.Tree
import ShaderLink.Link.Basic
import ShaderLink.Link.Closure
import ShaderLink.Link.Error
import ShaderLink.Link.Excerpt
import ShaderLink.Link.Linkage
import ShaderLink.Link.Name
import ShaderLink.Link.Reference
import ShaderLink.Module.Assembly
import ShaderLink.Module.Basic
import ShaderLink.Module.Element
import ShaderLink.Module.Item
import ShaderLink.Module.Parse
import ShaderLink.Module.Path
import ShaderLink.OrderedMap
import ShaderLink.Proofs.Except
import ShaderLink.Proofs.Grammar.Body
import ShaderLink.Proofs.Grammar.Import
import ShaderLink.Proofs.Grammar.Item
import ShaderLink.Proofs.Grammar.Reads
import ShaderLink.Proofs.Grammar.Yields
import ShaderLink.Proofs.Link.Capture
import ShaderLink.Proofs.Link.Closed
import ShaderLink.Proofs.Link.Coherence
import ShaderLink.Proofs.Link.External
import ShaderLink.Proofs.Link.Failure
import ShaderLink.Proofs.Link.Locate
import ShaderLink.Proofs.Link.Meaning
import ShaderLink.Proofs.Link.Name
import ShaderLink.Proofs.Link.Provenance
import ShaderLink.Proofs.Link.Run
import ShaderLink.Proofs.Link.Valid
import ShaderLink.Proofs.Link.Worklist
import ShaderLink.Proofs.Module.Layout
import ShaderLink.Proofs.Module.Scopes
import ShaderLink.Proofs.Module.Splices
import ShaderLink.Proofs.OrderedMap
import ShaderLink.Proofs.Provenance.Agreement
import ShaderLink.Proofs.Provenance.Assembly
import ShaderLink.Proofs.Provenance.Conditional
import ShaderLink.Proofs.Provenance.Excerpt
import ShaderLink.Proofs.Provenance.Merge
import ShaderLink.Proofs.Provenance.Origin
import ShaderLink.Proofs.Provenance.Splice
import ShaderLink.Proofs.Registry.Built
import ShaderLink.Proofs.Scope.Tree
import ShaderLink.Proofs.SourceMap.Lookup
import ShaderLink.Proofs.SourceMap.Tiling
import ShaderLink.Proofs.Text.Cut
import ShaderLink.Proofs.Text.Position
import ShaderLink.Proofs.Text.Start
import ShaderLink.Proofs.Token.Lexeme
import ShaderLink.Proofs.Token.Literal
import ShaderLink.Proofs.Token.Locality
import ShaderLink.Proofs.Token.LongestPrefix
import ShaderLink.Proofs.Token.Number
import ShaderLink.Registry.Basic
import ShaderLink.Resolution.ImportMap
import ShaderLink.Resolution.Resolve
import ShaderLink.Resolution.Target
import ShaderLink.Scope.Tree
import ShaderLink.Sort
import ShaderLink.SourceMap.Basic
import ShaderLink.SourceMap.Compact
import ShaderLink.SourceMap.Coverage
import ShaderLink.SourceMap.Lookup
import ShaderLink.SourceMap.Merge
import ShaderLink.Splice
import ShaderLink.Text.Alphanumeric
import ShaderLink.Text.Basic
import ShaderLink.Text.Blank
import ShaderLink.Text.Identifier
import ShaderLink.Text.Identifier.Rest
import ShaderLink.Text.Identifier.Start
import ShaderLink.Text.Position
import ShaderLink.Text.Span
import ShaderLink.Token.Basic
import ShaderLink.Token.Lexicon
import ShaderLink.Token.Scan
import ShaderLink.Warning
import ShaderLink.Proofs.Link.Naming
import ShaderLink.Proofs.Resolution.Target
import ShaderLink.Proofs.Link.Reaches
import ShaderLink.Proofs.Link.Needed
import ShaderLink.Proofs.Link.Termination
import ShaderLink.Proofs.Module.Spelling
import ShaderLink.Proofs.Link.RoundTrip
import ShaderLink.Proofs.Link.Argument
import ShaderLink.Proofs.Link.Inherited
import ShaderLink.Proofs.Token.Chain
import ShaderLink.Proofs.Grammar.Meets
import ShaderLink.Proofs.Grammar.Tokens
import ShaderLink.Proofs.Grammar.Cover
import ShaderLink.Proofs.Grammar.Code
import ShaderLink.Proofs.Grammar.CodeSound
import ShaderLink.Proofs.Grammar.Shape
import ShaderLink.Proofs.Grammar.ShapeSound
import ShaderLink.Proofs.Grammar.ItemSound
import ShaderLink.Proofs.Provenance.Segment
import ShaderLink.Proofs.Provenance.Renaming
import ShaderLink.Proofs.Module.Chain
import ShaderLink.Proofs.Link.Spelling
import ShaderLink.Proofs.Link.Interference
import ShaderLink.Proofs.Registry.Exporters
import ShaderLink.Proofs.Registry.History
import ShaderLink.Proofs.Registry.Files
import ShaderLink.Proofs.Link.Outcome
import ShaderLink.Proofs.Resolution.Agreement
import ShaderLink.Proofs.Link.Serves
import ShaderLink.Proofs.Link.Lockstep
import ShaderLink.Proofs.Link.SourceOrder
import ShaderLink.Proofs.Link.Unrelated
import ShaderLink.Proofs.Grammar.CodeComplete
import ShaderLink.Proofs.Grammar.ShapeComplete
import ShaderLink.Proofs.Grammar.Gap
import ShaderLink.Proofs.Grammar.ItemComplete
import ShaderLink.Proofs.Grammar.Listing
import ShaderLink.Proofs.Grammar.Parts
import ShaderLink.Proofs.Module.Parts
import ShaderLink.Proofs.Link.Idempotence
import ShaderLink.Proofs.Grammar.Outside
import ShaderLink.Proofs.Provenance.Order
import ShaderLink.Proofs.Module.Structure
import ShaderLink.Proofs.Scope.Environment
import ShaderLink.Proofs.Grammar.Balanced
import ShaderLink.Proofs.Module.Binding
import ShaderLink.Proofs.Grammar.Directive
import ShaderLink.Proofs.Import.Printing
import ShaderLink.Proofs.Grammar.Takes
import ShaderLink.Proofs.Import.Reading
import ShaderLink.Proofs.Import.RoundTrip
import ShaderLink.Proofs.Import.Dialects
import ShaderLink.Proofs.SourceMap.Merging
import ShaderLink.Proofs.SourceMap.Composition
import ShaderLink.Proofs.Resolution.Forms
import ShaderLink.Proofs.Link.RootUses
import ShaderLink.Proofs.SourceMap.Fragments
import ShaderLink.Proofs.Token.Comment
import ShaderLink.Proofs.Grammar.Lossless
import ShaderLink.Proofs.Grammar.Agreement
import ShaderLink.Proofs.Grammar.SameBody
import ShaderLink.Proofs.Grammar.SameItem
import ShaderLink.Proofs.Module.Unplaced
import ShaderLink.Proofs.Module.SameTokens
import ShaderLink.Proofs.Import.DeclaredLine
import ShaderLink.Proofs.Module.DeclaredPath
import ShaderLink.Proofs.Conditional.Blocks
import ShaderLink.Proofs.Conditional.Matching
import ShaderLink.Proofs.Conditional.Evaluation
import ShaderLink.Proofs.Conditional.Exactness
import ShaderLink.Proofs.Conditional.Deletion
import ShaderLink.Proofs.Splice.Order
import ShaderLink.Proofs.Splice.Parts
import ShaderLink.Proofs.Grammar.Steps
import ShaderLink.Proofs.Splice.Words
import ShaderLink.Proofs.Resolution.Overlap
import ShaderLink.Proofs.Resolution.Best
import ShaderLink.Proofs.Resolution.Choice
import ShaderLink.Proofs.Resolution.Order
import ShaderLink.Proofs.Resolution.Broken
import ShaderLink.Proofs.Import.Markers
import ShaderLink.Proofs.Resolution.Relative
import ShaderLink.Proofs.Resolution.Bare
import ShaderLink.Proofs.Grammar.Reading
import ShaderLink.Proofs.Grammar.ReadingSound
import ShaderLink.Proofs.Grammar.Parentheses
import ShaderLink.Proofs.Grammar.Unique
import ShaderLink.Proofs.Grammar.Uses
import ShaderLink.Proofs.Grammar.Dots
import ShaderLink.Proofs.Module.DeclTokens
import ShaderLink.Proofs.Module.Uses
import ShaderLink.Proofs.Module.Access
import ShaderLink.Proofs.SourceMap.NormalForm
import ShaderLink.Proofs.Grammar.Lexings
import ShaderLink.Proofs.Grammar.Metered
import ShaderLink.Proofs.Module.StepLimit
import ShaderLink.Proofs.Module.ErrorPlace
import ShaderLink.Proofs.Module.Visible
import ShaderLink.Proofs.Module.Signature
