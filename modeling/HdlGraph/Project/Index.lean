import HdlGraph.Parse.Extractor.Incremental

/-!
This module contains the commands that build the graph of a project and keep it up to date. The
parser, the file hash and the preprocessor are parameters.
-/

namespace HdlGraph

-- A file that a command goes over: its path relative to the project and what reading it gives
structure FileRead where
  rel : Text
  content : Option Text

-- The state that the incremental index keeps between runs; `H` is the type of file hashes
structure IndexedProject (H : Type) where
  graph : InMemoryGraph
  extractor : GraphExtractor
  fileMap : Dict Text NodeId
  fileNodeIds : Dict Text (List NodeId)
  fileEdges : Dict Text (List Edge)
  fileHashes : Dict NodeId H
  fileTrees : Dict Text Cst

structure ProjectState where
  graph : InMemoryGraph
  symbols : SymbolTable
  fileMap : Dict Text NodeId

namespace IndexedProject

def new (H : Type) : IndexedProject H where
  graph := .new
  extractor := .new
  fileMap := .empty
  fileNodeIds := .empty
  fileEdges := .empty
  fileHashes := .empty
  fileTrees := .empty

section

variable {H : Type} [DecidableEq H]
-- `parse` takes the old tree that the parser may reuse
variable (parse : Text → Option Cst → Cst) (computeFileHash : Text → H)

omit [DecidableEq H] in
def indexFile (state : IndexedProject H) (file : FileRead) : IndexedProject H :=
  match file.content with
  | none => state
  | some content =>
    let tree := parse content none
    let ((nodes, edges), extractor) := state.extractor.extract tree 0
    let sourceFileId := (nodes.head?.map GraphNode.id).getD 0
    {
      graph := (state.graph.addNodes nodes).addEdges edges
      extractor
      fileMap := state.fileMap.insert file.rel sourceFileId
      fileNodeIds := state.fileNodeIds.insert file.rel (nodes.map GraphNode.id)
      fileEdges := state.fileEdges.insert file.rel edges
      fileHashes := state.fileHashes.insert sourceFileId (computeFileHash content)
      fileTrees := state.fileTrees.insert file.rel tree
    }

omit [DecidableEq H] in
def indexProject (files : List FileRead) : IndexedProject H :=
  files.foldl (indexFile parse computeFileHash) (new H)

def isUnchanged (state : IndexedProject H) (fileId : NodeId) (newHash : H) : Prop :=
  fileId ≠ 0 ∧ state.fileHashes.get? fileId = some newHash

instance (state : IndexedProject H) (fileId : NodeId) (newHash : H)
    : Decidable (state.isUnchanged fileId newHash) :=
  inferInstanceAs (Decidable (_ ∧ _))

def updateFile (state : IndexedProject H) (file : FileRead) : IndexedProject H :=
  match file.content with
  | none => state
  | some content =>
    let newHash := computeFileHash content
    let fileId := state.fileMap.getD file.rel 0
    if state.isUnchanged fileId newHash then
      state
    else
      let oldTree := state.fileTrees.get? file.rel
      let tree := parse content oldTree
      let oldNodeIds := state.fileNodeIds.getD file.rel []
      let oldEdges := state.fileEdges.getD file.rel []
      let (changeset, extractor) := state.extractor.extractChangeset tree fileId oldNodeIds oldEdges
      let newNodeIds := changeset.addedNodes.map Prod.fst
      let newFileId := (changeset.addedNodes.head?.map Prod.fst).getD 0
      {
        graph := changeset.applyTo state.graph
        extractor
        fileMap := if newFileId ≠ 0 then state.fileMap.insert file.rel newFileId else state.fileMap
        fileNodeIds := (state.fileNodeIds.remove file.rel).insert file.rel newNodeIds
        fileEdges := (state.fileEdges.remove file.rel).insert file.rel changeset.addedEdges
        fileHashes :=
          if newFileId ≠ 0 then state.fileHashes.insert newFileId newHash else state.fileHashes
        fileTrees := (state.fileTrees.remove file.rel).insert file.rel tree
      }

def cmdIndexIncremental (state : IndexedProject H) (changedFiles : List FileRead)
    : IndexedProject H :=
  changedFiles.foldl (updateFile parse computeFileHash) state

def indexAndUpdate (files : List FileRead) (rounds : List (List FileRead)) : IndexedProject H :=
  rounds.foldl (cmdIndexIncremental parse computeFileHash)
    (indexProject parse computeFileHash files)

end

end IndexedProject

namespace ProjectState

-- The loops of `load_or_build` and `load_project`, where `prepare` gives the text that is parsed
def loadFile (parse : Text → Option Cst → Cst) (prepare : Text → Text → Text)
    (state : InMemoryGraph × GraphExtractor × Dict Text NodeId) (file : FileRead)
    : InMemoryGraph × GraphExtractor × Dict Text NodeId :=
  let (graph, extractor, fileMap) := state
  match file.content with
  | none => state
  | some content =>
    let ((nodes, edges), extractor) := extractor.extract (parse (prepare content file.rel) none) 0
    let sourceFileId := (nodes.head?.map GraphNode.id).getD 0
    ((graph.addNodes nodes).addEdges edges, extractor, fileMap.insert file.rel sourceFileId)

def loadFiles (parse : Text → Option Cst → Cst) (prepare : Text → Text → Text)
    (files : List FileRead)
    : ProjectState :=
  let (graph, extractor, fileMap) := files.foldl (loadFile parse prepare) (.new, .new, .empty)
  { graph, symbols := extractor.symbols, fileMap }

def loadOrBuild (parse : Text → Option Cst → Cst) (files : List FileRead) : ProjectState :=
  loadFiles parse (fun source _ => source) files

def loadProject (parse : Text → Option Cst → Cst) (preprocess : Text → Text → Text)
    (files : List FileRead)
    : ProjectState :=
  loadFiles parse preprocess files

end ProjectState

end HdlGraph
