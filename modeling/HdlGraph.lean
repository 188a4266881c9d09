import HdlGraph.Library.Dict
import HdlGraph.Library.OrderedMap
import HdlGraph.Library.Worklist
import HdlGraph.Library.Bfs
import HdlGraph.Library.Dfs
import HdlGraph.Library.Path
import HdlGraph.Library.Buckets
import HdlGraph.Library.Bytes
import HdlGraph.Library.Text
import HdlGraph.Library.Words
import HdlGraph.Library.Unicode
import HdlGraph.Library.LineCol
import HdlGraph.Library.Run
import HdlGraph.Library.Wildcard
import HdlGraph.Library.Regex
import HdlGraph.Library.Splice
import HdlGraph.Library.Rose
import HdlGraph.Library.Walk
import HdlGraph.Library.Forest
import HdlGraph.Library.Conditional
import HdlGraph.Library.Brackets
import HdlGraph.Library.Nesting
import HdlGraph.Library.Blocks
import HdlGraph.Library.Chunks
import HdlGraph.Library.Writes
import HdlGraph.Core.Helpers
import HdlGraph.Core.Glob
import HdlGraph.Core.Symbol
import HdlGraph.Core.Edge
import HdlGraph.Core.Node
import HdlGraph.Storage.Memory
import HdlGraph.Storage.Adjacency
import HdlGraph.Storage.NameIndex
import HdlGraph.Storage.Persistent
import HdlGraph.Storage.Agreement
import HdlGraph.Storage.Contents
import HdlGraph.Storage.NodeUpdates
import HdlGraph.Parse.Cst
import HdlGraph.Parse.Subtrees
import HdlGraph.Parse.Extractor.Basic
import HdlGraph.Parse.Extractor.Outline
import HdlGraph.Parse.Extractor.Added
import HdlGraph.Parse.Extractor.Declarations
import HdlGraph.Parse.Extractor.Uvm
import HdlGraph.Parse.Extractor.RegistryType
import HdlGraph.Parse.Extractor.Assertion
import HdlGraph.Parse.Extractor.Generate
import HdlGraph.Parse.Extractor.Class
import HdlGraph.Parse.Extractor.Package
import HdlGraph.Parse.Extractor.Module
import HdlGraph.Parse.Extractor.Extract
import HdlGraph.Parse.Extractor.Numbering
import HdlGraph.Parse.Extractor.TopLevel
import HdlGraph.Parse.Extractor.Tree
import HdlGraph.Parse.Extractor.Attached
import HdlGraph.Parse.Extractor.Scoped
import HdlGraph.Parse.Extractor.Defined
import HdlGraph.Parse.Extractor.Classes
import HdlGraph.Parse.Extractor.UvmCalls
import HdlGraph.Parse.Extractor.Incremental
import HdlGraph.Parse.Extractor.Calls
import HdlGraph.Parse.Extractor.Methods
import HdlGraph.Parse.Extractor.Places
import HdlGraph.Parse.Extractor.Ports
import HdlGraph.Parse.Extractor.DeclaredNames
import HdlGraph.Parse.Extractor.TlmPorts
import HdlGraph.Parse.Extractor.TopItems
import HdlGraph.Parse.Preprocessor.Pass1Standard
import HdlGraph.Parse.Preprocessor.SvMacro
import HdlGraph.Parse.Preprocessor.Substitution
import HdlGraph.Parse.Preprocessor.WholeWord
import HdlGraph.Parse.Preprocessor.Arguments
import HdlGraph.Parse.Preprocessor.SvPreprocessor
import HdlGraph.Parse.Preprocessor.Includes
import HdlGraph.Parse.Preprocessor.Panics
import HdlGraph.Parse.Preprocessor.Expansion
import HdlGraph.Parse.Preprocessor.Emitted
import HdlGraph.Parse.Preprocessor.Define
import HdlGraph.Parse.Preprocessor.Replacement
import HdlGraph.Parse.Preprocessor.Continuation
import HdlGraph.Parse.Preprocessor.Comments
import HdlGraph.Parse.Preprocessor.Pass2Scanner
import HdlGraph.Parse.Preprocessor.Pass3Expander
import HdlGraph.Parse.Preprocessor.Outside
import HdlGraph.Parse.Preprocessor.SourceMap
import HdlGraph.Parse.Preprocessor.Preprocess
import HdlGraph.Parse.Preprocessor.FieldBlocks
import HdlGraph.Parse.Preprocessor.Registration
import HdlGraph.Parse.Preprocessor.CallArguments
import HdlGraph.Parse.Preprocessor.Again
import HdlGraph.Project.Index
import HdlGraph.Project.Walks
import HdlGraph.Project.Planted
import HdlGraph.Project.Layout
import HdlGraph.Project.Describes
import HdlGraph.Project.Reparse
import HdlGraph.Project.Rebuild
import HdlGraph.Project.Orders
import HdlGraph.Project.Located
import HdlGraph.Project.TwoLevels
import HdlGraph.Project.Declared
import HdlGraph.Project.Frontends
import HdlGraph.Project.Loaded
import HdlGraph.Project.Collect
import HdlGraph.Project.Watch
import HdlGraph.Project.WatchedIndex
import HdlGraph.Project.Integrity
import HdlGraph.Frontend.Impact
import HdlGraph.Frontend.ImpactTool
import HdlGraph.Frontend.Files
import HdlGraph.Frontend.GotoDefinition
import HdlGraph.Frontend.SemanticTokens
import HdlGraph.Frontend.Lexemes
import HdlGraph.Frontend.TokenPositions
import HdlGraph.Frontend.Search
import HdlGraph.Frontend.Hover
import HdlGraph.Frontend.Completion
import HdlGraph.Frontend.CompletionZone
import HdlGraph.Frontend.CallSites
import HdlGraph.Frontend.Check
import HdlGraph.Frontend.Consistency
import HdlGraph.Frontend.Refs
import HdlGraph.Frontend.FileOfNode
import HdlGraph.Frontend.JsonExport
import HdlGraph.Frontend.LspIndex
import HdlGraph.Frontend.NodeDetail
import HdlGraph.Frontend.Instances
import HdlGraph.Frontend.Definitions
import HdlGraph.Frontend.Stats
import HdlGraph.Frontend.Scip
import HdlGraph.Frontend.TypeHierarchy
import HdlGraph.Frontend.Markdown
import HdlGraph.Frontend.Drivers
import HdlGraph.Frontend.Hierarchy
import HdlGraph.Frontend.HierarchyQuery
import HdlGraph.Frontend.Explore
import HdlGraph.Frontend.Uvm
import HdlGraph.Frontend.UvmParents
import HdlGraph.Library.Inclusion
import HdlGraph.Parse.Preprocessor.Inlining
import HdlGraph.Library.Respelled
import HdlGraph.Parse.Preprocessor.SourceLine
import HdlGraph.Parse.Preprocessor.BothPasses
import HdlGraph.Library.Origins
import HdlGraph.Parse.Extractor.Origin
import HdlGraph.Library.Typed
import HdlGraph.Parse.Extractor.Schema
import HdlGraph.Project.Conforms
import HdlGraph.Frontend.MarkdownSingle
