import HdlGraph.Library.Buckets
import HdlGraph.Core.Node

/-!
This module contains the in-memory graph store: nodes by id, the edges filed twice (by source and by
target) and the index from interned names to node ids.
-/

namespace HdlGraph

structure InMemoryGraph where
  nodes : Dict NodeId GraphNode
  bySource : Dict NodeId (List Edge)
  byTarget : Dict NodeId (List Edge)
  byInternedName : Dict Nat (List NodeId)
  symbols : SymbolTable
  nextId : NodeId

namespace InMemoryGraph

def new : InMemoryGraph where
  nodes := .empty
  bySource := .empty
  byTarget := .empty
  byInternedName := .empty
  symbols := .new
  nextId := 0

def storeId (g : InMemoryGraph) (node : GraphNode) : NodeId :=
  if node.id = 0 then g.nextId else node.id

def addNode (g : InMemoryGraph) (node : GraphNode) : NodeId × InMemoryGraph :=
  let id := g.storeId node
  let node := { node with id := id }
  -- `node.id + 1` is a `u64`
  let nextId := if id ≥ g.nextId then (id + 1) % 2 ^ 64 else g.nextId
  let byInternedName :=
    match extractNameId node.kind with
    | some nameId => Buckets.push g.byInternedName nameId id
    | none => g.byInternedName
  (id, {
    nodes := g.nodes.insert id node
    bySource := Buckets.touch g.bySource id
    byTarget := Buckets.touch g.byTarget id
    byInternedName := byInternedName
    symbols := g.symbols
    nextId := nextId
  })

def addNodeWithName (g : InMemoryGraph) (node : GraphNode) (name : Text) : NodeId × InMemoryGraph :=
  let (interned, symbols) := g.symbols.intern name
  let (id, g) := { g with symbols := symbols }.addNode node
  let pushNew := fun ids : List NodeId => if id ∈ ids then ids else ids ++ [id]
  (id, { g with byInternedName := g.byInternedName.entry interned.val [] pushNew })

def getByInternedName (g : InMemoryGraph) (internedId : Nat) : List NodeId :=
  g.byInternedName.getD internedId []

def getNode (g : InMemoryGraph) (id : NodeId) : Option GraphNode := g.nodes.get? id

def addEdge (g : InMemoryGraph) (edge : Edge) : InMemoryGraph :=
  { g with
    bySource := Buckets.push g.bySource edge.source edge
    byTarget := Buckets.push g.byTarget edge.target edge }

def removeNode (g : InMemoryGraph) (id : NodeId) : InMemoryGraph :=
  let byInternedName :=
    match (g.nodes.get? id).bind fun node => extractNameId node.kind with
    | some nameId =>
      match g.byInternedName.get? nameId with
      | some ids =>
        let ids := ids.filter (· ≠ id)
        if ids.isEmpty then g.byInternedName.remove nameId else g.byInternedName.insert nameId ids
      | none => g.byInternedName
    | none => g.byInternedName
  let outgoing := g.bySource.getD id []
  let bySource := g.bySource.remove id
  let byTarget := (outgoing.map (·.target)).foldl
    (fun m target => Buckets.retain m target fun e => e.source ≠ id) g.byTarget
  let incoming := byTarget.getD id []
  let byTarget := byTarget.remove id
  let bySource := (incoming.map (·.source)).foldl
    (fun m source => Buckets.retain m source fun e => e.target ≠ id) bySource
  {
    nodes := g.nodes.remove id
    bySource := bySource
    byTarget := byTarget
    byInternedName := byInternedName
    symbols := g.symbols
    nextId := g.nextId
  }

def removeEdge (g : InMemoryGraph) (source target : NodeId) : InMemoryGraph :=
  let keep := fun e : Edge => e.source ≠ source ∨ e.target ≠ target
  { g with
    bySource := Buckets.retain g.bySource source fun e => keep e
    byTarget := Buckets.retain g.byTarget target fun e => keep e }

def getOutgoing (g : InMemoryGraph) (id : NodeId) : List Edge := g.bySource.getD id []

def getIncoming (g : InMemoryGraph) (id : NodeId) : List Edge := g.byTarget.getD id []

def nodeCount (g : InMemoryGraph) : Nat := g.nodes.toList.length

def edgeCount (g : InMemoryGraph) : Nat := Buckets.size g.bySource

def allNodes (g : InMemoryGraph) : List GraphNode := g.nodes.toList.map Prod.snd

def getByName (g : InMemoryGraph) (name : Text) : List GraphNode :=
  match g.symbols.resolveId name with
  | some internedId => (g.getByInternedName internedId).filterMap g.nodes.get?
  | none => []

end InMemoryGraph

inductive GraphOp where
  | intern (s : Text)
  | addNode (node : GraphNode)
  | addNodeWithName (node : GraphNode) (name : Text)
  | addEdge (edge : Edge)
  | removeNode (id : NodeId)
  | removeEdge (source target : NodeId)

namespace GraphOp

def apply (g : InMemoryGraph) : GraphOp → InMemoryGraph
  | intern s => { g with symbols := (g.symbols.intern s).2 }
  | addNode node => (g.addNode node).2
  | addNodeWithName node name => (g.addNodeWithName node name).2
  | addEdge edge => g.addEdge edge
  | removeNode id => g.removeNode id
  | removeEdge source target => g.removeEdge source target

end GraphOp

namespace InMemoryGraph

def run (ops : List GraphOp) (g : InMemoryGraph) : InMemoryGraph := ops.foldl GraphOp.apply g

def Reachable (g : InMemoryGraph) : Prop := ∃ ops : List GraphOp, g = run ops new

@[simp]
theorem run_nil (g : InMemoryGraph) : run [] g = g := rfl

@[simp]
theorem run_cons (op : GraphOp) (ops : List GraphOp) (g : InMemoryGraph)
    : run (op :: ops) g = run ops (op.apply g) :=
  rfl

theorem run_append (ops ops' : List GraphOp) (g : InMemoryGraph)
    : run (ops ++ ops') g = run ops' (run ops g) := by
  simp [run]

theorem Reachable.new : Reachable new := ⟨[], rfl⟩

theorem Reachable.run {g : InMemoryGraph} (h : Reachable g) (ops : List GraphOp)
    : Reachable (run ops g) := by
  have ⟨past, hpast⟩ := h
  exact ⟨past ++ ops, by rw [run_append, hpast]⟩

@[simp]
theorem addNode_fst (g : InMemoryGraph) (node : GraphNode)
    : (g.addNode node).1 = g.storeId node := rfl

@[simp]
theorem addNode_nodes (g : InMemoryGraph) (node : GraphNode)
    : (g.addNode node).2.nodes
        = g.nodes.insert (g.storeId node) { node with id := g.storeId node } :=
  rfl

@[simp]
theorem addNodeWithName_nodes (g : InMemoryGraph) (node : GraphNode) (name : Text)
    : (g.addNodeWithName node name).2.nodes = (g.addNode node).2.nodes :=
  rfl

@[simp]
theorem addEdge_nodes (g : InMemoryGraph) (edge : Edge) : (g.addEdge edge).nodes = g.nodes := rfl

@[simp]
theorem removeNode_nodes (g : InMemoryGraph) (id : NodeId)
    : (g.removeNode id).nodes = g.nodes.remove id := rfl

@[simp]
theorem removeEdge_nodes (g : InMemoryGraph) (source target : NodeId)
    : (g.removeEdge source target).nodes = g.nodes :=
  rfl

end InMemoryGraph
end HdlGraph
