import Multicast.Ascending
import Multicast.Command.Arguments
import Multicast.Command.OnDisk
import Multicast.Command.Run
import Multicast.Files.Fault
import Multicast.Files.Path
import Multicast.Files.Tree
import Multicast.Hook.Config
import Multicast.Hook.Forwarding
import Multicast.Hook.FreshName
import Multicast.Hook.HookFile
import Multicast.Hook.HookedMethod
import Multicast.Hook.Location
import Multicast.Hook.Plan
import Multicast.Hook.Target
import Multicast.Package.Basic
import Multicast.Package.Loading
import Multicast.Package.MethodSet
import Multicast.Package.Object
import Multicast.Package.Underlying
import Multicast.Project.Generate
import Multicast.Project.ImportPath
import Multicast.Project.Workspace
import Multicast.Proofs.ArrayLengths
import Multicast.Proofs.Blanks
import Multicast.Proofs.Bodies
import Multicast.Proofs.Chains
import Multicast.Proofs.Closed
import Multicast.Proofs.Constraints
import Multicast.Proofs.Cutting
import Multicast.Proofs.Delimiters
import Multicast.Proofs.Descents
import Multicast.Proofs.Directories
import Multicast.Proofs.Echoes
import Multicast.Proofs.Embedding
import Multicast.Proofs.Endings
import Multicast.Proofs.Enlarged
import Multicast.Proofs.Evaluation
import Multicast.Proofs.Exchange
import Multicast.Proofs.Extraction
import Multicast.Proofs.FileReads
import Multicast.Proofs.FileYields
import Multicast.Proofs.Flags
import Multicast.Proofs.Footprint
import Multicast.Proofs.Forwarded
import Multicast.Proofs.ForwardedBack
import Multicast.Proofs.Freshness
import Multicast.Proofs.Grammar
import Multicast.Proofs.Grouped
import Multicast.Proofs.Guarded
import Multicast.Proofs.Header
import Multicast.Proofs.HeaderAgain
import Multicast.Proofs.HookMethods
import Multicast.Proofs.HookText
import Multicast.Proofs.HookTypes
import Multicast.Proofs.Hooked
import Multicast.Proofs.Imports
import Multicast.Proofs.Insertion
import Multicast.Proofs.Layout
import Multicast.Proofs.Lengths
import Multicast.Proofs.Lines
import Multicast.Proofs.Linking
import Multicast.Proofs.LoadOrder
import Multicast.Proofs.Located
import Multicast.Proofs.Locations
import Multicast.Proofs.Merged
import Multicast.Proofs.Onwards
import Multicast.Proofs.Outcomes
import Multicast.Proofs.PackageNames
import Multicast.Proofs.ParameterRule
import Multicast.Proofs.Parts
import Multicast.Proofs.Passing
import Multicast.Proofs.Pieces
import Multicast.Proofs.Places
import Multicast.Proofs.Planned
import Multicast.Proofs.Positions
import Multicast.Proofs.Qualifiers
import Multicast.Proofs.ReadBack
import Multicast.Proofs.Reads
import Multicast.Proofs.Regenerated
import Multicast.Proofs.Removal
import Multicast.Proofs.Rendered
import Multicast.Proofs.Reserved
import Multicast.Proofs.Respaced
import Multicast.Proofs.Returns
import Multicast.Proofs.RoundTrip
import Multicast.Proofs.Rounds
import Multicast.Proofs.SourcesAlike
import Multicast.Proofs.Spelling
import Multicast.Proofs.Stencils
import Multicast.Proofs.Traversals
import Multicast.Proofs.TypesAgain
import Multicast.Proofs.Verdicts
import Multicast.Proofs.Words
import Multicast.Proofs.Wordwise
import Multicast.Proofs.Yields
import Multicast.Source.Diagnostic
import Multicast.Source.Lexing
import Multicast.Source.Piece
import Multicast.Source.Position
import Multicast.Source.Token
import Multicast.Syntax.File
import Multicast.Syntax.Parameters
import Multicast.Syntax.Parser
import Multicast.Syntax.Scope
import Multicast.Syntax.TypeExpr
import Multicast.Text.Blank
import Multicast.Text.Cut
import Multicast.Text.Extender
import Multicast.Text.Hidden
import Multicast.Text.Json
import Multicast.Text.Letter
import Multicast.Text.Numeral
import Multicast.Text.Quoted
import Multicast.Text.Ranges
import Multicast.Text.Utf8
import Multicast.Types.GoType
import Multicast.Types.PackageId
import Multicast.Types.Relocation
import Multicast.Types.Rendering
