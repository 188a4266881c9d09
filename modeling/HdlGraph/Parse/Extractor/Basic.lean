import HdlGraph.Core.Node
import HdlGraph.Parse.Cst

/-!
This module contains the state of the graph extractor and the primitive steps that its functions are
made of.
-/

namespace HdlGraph

/--
The extractor that is shared by all files of a project. Its counter starts at 1, so no extracted
node has the id 0 that a graph store would replace.
-/
structure GraphExtractor where
  symbols : SymbolTable
  nextId : NodeId
  currentFileId : Nat
  nextId_pos : 0 < nextId

namespace GraphExtractor

def new : GraphExtractor where
  symbols := .new
  nextId := 1
  currentFileId := 0
  nextId_pos := Nat.one_pos

instance : Inhabited GraphExtractor where
  default := new

end GraphExtractor

structure ExtractState where
  extractor : GraphExtractor
  nodes : List GraphNode
  edges : List Edge

abbrev ExtractM := StateM ExtractState

namespace ExtractM

def nextId : ExtractM NodeId := fun s =>
  let ex := s.extractor
  (ex.nextId,
    { s with extractor := { ex with nextId := ex.nextId + 1, nextId_pos := Nat.succ_pos _ } })

def intern (text : Text) : ExtractM InternedString := fun s =>
  let (sym, symbols) := s.extractor.symbols.intern text
  (sym, { s with extractor := { s.extractor with symbols := symbols } })

def makeNode (fileId : Nat) (pos : Position) (id : NodeId) (kind : NodeKind InternedString)
    : GraphNode where
  id := id
  kind := kind
  scopeId := none
  fileId := fileId
  line := pos.row + 1
  col := pos.col

-- `nodes.push(self.make_node(ts_node, id, kind, None))`, where `pos` is the start of `ts_node`
def pushNode (pos : Position) (id : NodeId) (kind : NodeKind InternedString) : ExtractM Unit :=
  fun s => ((), { s with nodes := s.nodes ++ [makeNode s.extractor.currentFileId pos id kind] })

-- `edges.push(Edge { source, target, edge_type })`
def pushEdge (source target : NodeId) (edgeType : EdgeType) : ExtractM Unit := fun s =>
  ((), { s with edges := s.edges ++ [{ source, target, edgeType }] })

def addChild (pos : Position) (kind : NodeKind InternedString) (parentId : NodeId)
    (edgeType : EdgeType)
    : ExtractM NodeId := do
  let id ← nextId
  pushNode pos id kind
  pushEdge parentId id edgeType
  return id

end ExtractM
end HdlGraph
