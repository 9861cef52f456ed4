import CodeAtlas.Main
import CodeAtlas.Source.Memory
import CodeAtlas.Proofs.Dependency.Built
import CodeAtlas.Proofs.Search.Invariant
import CodeAtlas.Proofs.Search.End
import CodeAtlas.Proofs.Dependency.Peeling
import CodeAtlas.Proofs.Rings.Completeness
import CodeAtlas.Proofs.Rings.Promises
import CodeAtlas.Proofs.Search.Entering
import CodeAtlas.Proofs.Rings.Coverage
import CodeAtlas.Proofs.Rings.MutualImports
import CodeAtlas.Proofs.Dependency.Answers
import CodeAtlas.Proofs.Dependency.IndexedGraph
import CodeAtlas.Proofs.Dependency.Neighbors
import CodeAtlas.Proofs.Dependency.Contents
import CodeAtlas.Proofs.Dependency.Packages
import CodeAtlas.Proofs.Dependency.Rankings
import CodeAtlas.Proofs.Session.Coherence
import CodeAtlas.Proofs.Dependency.Agreement
import CodeAtlas.Proofs.Session.Batches
import CodeAtlas.Proofs.Session.Confluence
import CodeAtlas.Proofs.Session.Imports
import CodeAtlas.Proofs.Session.Accounts
import CodeAtlas.Proofs.Session.Dependencies
import CodeAtlas.Proofs.Source.NormalPaths
import CodeAtlas.Proofs.Dependency.Placement
import CodeAtlas.Proofs.Dependency.Drawing
import CodeAtlas.Proofs.Size.Refinement
import CodeAtlas.Proofs.Size.Kinds
import CodeAtlas.Proofs.Size.Literals
import CodeAtlas.Proofs.Size.FrontComments
import CodeAtlas.Proofs.Source.Patterns
import CodeAtlas.Proofs.Source.Paths
import CodeAtlas.Proofs.Source.Trees
import CodeAtlas.Proofs.Source.Scans
import CodeAtlas.Proofs.Source.Selection
import CodeAtlas.Proofs.Grammar.Subtrees
import CodeAtlas.Proofs.Grammar.Yields
import CodeAtlas.Proofs.Grammar.Nodes
import CodeAtlas.Proofs.Grammar.ImportStatements
import CodeAtlas.Proofs.Grammar.Totals
import CodeAtlas.Proofs.Grammar.ExportStatements
import CodeAtlas.Proofs.Grammar.Places
import CodeAtlas.Proofs.Grammar.Walks
import CodeAtlas.Proofs.Responsibility.DataClients
import CodeAtlas.Proofs.Responsibility.Names
import CodeAtlas.Proofs.Extraction.Imports
import CodeAtlas.Proofs.Extraction.Exports
import CodeAtlas.Proofs.Search.Cuts
import CodeAtlas.Proofs.Rings.Depth
import CodeAtlas.Proofs.Rings.Closings
import CodeAtlas.Proofs.Dependency.Summaries
import CodeAtlas.Proofs.Dependency.Ways
import CodeAtlas.Proofs.Extraction.Unused
import CodeAtlas.Proofs.Calls.Operands
import CodeAtlas.Proofs.Calls.Callees
import CodeAtlas.Proofs.Size.Measurement
import CodeAtlas.Proofs.Size.Layout
import CodeAtlas.Proofs.Responsibility.LetterCase
import CodeAtlas.Proofs.Session.SharedKeys
import CodeAtlas.Proofs.Grammar.FunctionKeywords
import CodeAtlas.Proofs.Responsibility.Functions
import CodeAtlas.Proofs.Grammar.Tours
import CodeAtlas.Proofs.Source.CanonicalPaths
import CodeAtlas.Proofs.Dependency.Groups
