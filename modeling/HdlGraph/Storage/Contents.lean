import HdlGraph.Storage.Adjacency

/-!
This module contains the nodes of the graph store as a whole: which nodes it holds after a batch of
nodes was removed or added.
-/

namespace HdlGraph
namespace InMemoryGraph

open scoped List

def Keyed (g : InMemoryGraph) : Prop :=
  ∀ (id : NodeId) (node : GraphNode), g.nodes.get? id = some node → node.id = id

namespace Keyed

variable {g : InMemoryGraph}

theorem new : Keyed new := by
  intro id node hnode
  simp [InMemoryGraph.new] at hnode

theorem addNode (h : Keyed g) (node : GraphNode) : Keyed (g.addNode node).2 := by
  intro id stored hstored
  rw [addNode_nodes, Dict.get?_insert] at hstored
  split at hstored
  . next hid =>
    rw [Option.some.injEq] at hstored
    rw [← hstored, hid]
  . exact h id stored hstored

theorem removeNode (h : Keyed g) (id : NodeId) : Keyed (g.removeNode id) := by
  intro id' stored hstored
  rw [removeNode_nodes, Dict.get?_remove] at hstored
  split at hstored
  . simp at hstored
  . exact h id' stored hstored

theorem apply (h : Keyed g) (op : GraphOp) : Keyed (op.apply g) := by
  cases op with
  | intern s => exact h
  | addNode node => exact h.addNode node
  | addNodeWithName node name =>
    intro id stored hstored
    exact addNode (g := { g with symbols := (g.symbols.intern name).2 }) h node id stored hstored
  | addEdge edge => exact h
  | removeNode id => exact h.removeNode id
  | removeEdge source target => exact h

theorem run (h : Keyed g) (ops : List GraphOp) : Keyed (run ops g) := by
  induction ops generalizing g with
  | nil => exact h
  | cons op ops ih => exact ih (h.apply op)

theorem map_id_allNodes (h : Keyed g) : g.allNodes.map GraphNode.id = g.nodes.keys := by
  rw [allNodes, List.map_map, ← Dict.keys_eq]
  apply List.map_congr_left
  intro ⟨id, node⟩ he
  exact h id node (Dict.mem_toList_iff.mp he)

theorem ids_nodup (h : Keyed g) : (g.allNodes.map GraphNode.id).Nodup := by
  rw [h.map_id_allNodes]
  exact g.nodes.keys_nodup

theorem getNode_eq_some_iff (h : Keyed g) {id : NodeId} {node : GraphNode}
    : g.getNode id = some node ↔ node ∈ g.allNodes ∧ node.id = id := by
  rw [getNode, ← Dict.mem_toList_iff, allNodes, List.mem_map]
  constructor
  . intro he
    exact ⟨⟨_, he, rfl⟩, h id node (Dict.mem_toList_iff.mp he)⟩
  . intro ⟨⟨⟨id', node'⟩, he, heq⟩, hid⟩
    have := h id' node' (Dict.mem_toList_iff.mp he)
    grind

theorem map_filter_toList (h : Keyed g) (id : NodeId)
    : ((g.nodes.toList.filter fun e => e.1 ≠ id).map Prod.snd) = g.allNodes.filter fun node =>
        node.id ≠ id := by
  rw [allNodes, List.filter_map]
  congr 1
  apply List.filter_congr
  intro ⟨id', node⟩ he
  have := h id' node (Dict.mem_toList_iff.mp he)
  simp [this]

theorem perm_removeNode (h : Keyed g) (id : NodeId)
    : (g.removeNode id).allNodes ~ g.allNodes.filter fun node => node.id ≠ id := by
  rw [← h.map_filter_toList]
  exact (Dict.perm_toList_remove g.nodes id).map _

theorem perm_addNode (h : Keyed g) {node : GraphNode} (hid : node.id ≠ 0)
    : (g.addNode node).2.allNodes ~ node :: g.allNodes.filter fun other => other.id ≠ node.id := by
  have hstore : g.storeId node = node.id := if_neg hid
  have hinsert := (Dict.perm_toList_insert g.nodes node.id node).map Prod.snd
  rw [List.map_cons, h.map_filter_toList] at hinsert
  rw [allNodes, addNode_nodes, hstore]
  exact hinsert

end Keyed

theorem Logs.perm_flatMap_getOutgoing {g : InMemoryGraph} {log : List Edge} (h : Logs g log)
    {ids : List NodeId} (hnodup : ids.Nodup)
    : ids.flatMap g.getOutgoing ~ log.filter fun e => e.source ∈ ids :=
  h.outgoing.perm_flatMap_getD hnodup

theorem Logs.perm_flatMap_getIncoming {g : InMemoryGraph} {log : List Edge} (h : Logs g log)
    {ids : List NodeId} (hnodup : ids.Nodup)
    : ids.flatMap g.getIncoming ~ log.filter fun e => e.target ∈ ids :=
  h.incoming.perm_flatMap_getD hnodup

theorem Reachable.keyed {g : InMemoryGraph} (h : Reachable g) : Keyed g := by
  have ⟨ops, hops⟩ := h
  exact hops ▸ Keyed.new.run ops

@[simp]
theorem addEdge_allNodes (g : InMemoryGraph) (edge : Edge)
    : (g.addEdge edge).allNodes = g.allNodes := rfl

@[simp]
theorem removeEdge_allNodes (g : InMemoryGraph) (source target : NodeId)
    : (g.removeEdge source target).allNodes = g.allNodes :=
  rfl

/-! ## Batches -/

def removeNodes (g : InMemoryGraph) (ids : List NodeId) : InMemoryGraph := ids.foldl removeNode g

def addNodes (g : InMemoryGraph) (nodes : List GraphNode) : InMemoryGraph :=
  nodes.foldl (fun g node => (g.addNode node).2) g

def addEdges (g : InMemoryGraph) (edges : List Edge) : InMemoryGraph := edges.foldl addEdge g

def removeEdges (g : InMemoryGraph) (pairs : List (NodeId × NodeId)) : InMemoryGraph :=
  pairs.foldl (fun g pair => g.removeEdge pair.1 pair.2) g

theorem Reachable.removeNodes {g : InMemoryGraph} (h : Reachable g) (ids : List NodeId)
    : Reachable (g.removeNodes ids) := by
  have := h.run (ids.map .removeNode)
  rwa [InMemoryGraph.run, List.foldl_map] at this

theorem Reachable.addNodes {g : InMemoryGraph} (h : Reachable g) (nodes : List GraphNode)
    : Reachable (g.addNodes nodes) := by
  have := h.run (nodes.map .addNode)
  rwa [InMemoryGraph.run, List.foldl_map] at this

theorem Reachable.addEdges {g : InMemoryGraph} (h : Reachable g) (edges : List Edge)
    : Reachable (g.addEdges edges) := by
  have := h.run (edges.map .addEdge)
  rwa [InMemoryGraph.run, List.foldl_map] at this

theorem Reachable.removeEdges {g : InMemoryGraph} (h : Reachable g) (pairs : List (NodeId × NodeId))
    : Reachable (g.removeEdges pairs) := by
  have := h.run (pairs.map fun pair => .removeEdge pair.1 pair.2)
  rwa [InMemoryGraph.run, List.foldl_map] at this

theorem Keyed.removeNodes {g : InMemoryGraph} (h : Keyed g) (ids : List NodeId)
    : Keyed (g.removeNodes ids) := by
  induction ids generalizing g with
  | nil => exact h
  | cons id ids ih => exact ih (h.removeNode id)

theorem Keyed.addNodes {g : InMemoryGraph} (h : Keyed g) (nodes : List GraphNode)
    : Keyed (g.addNodes nodes) := by
  induction nodes generalizing g with
  | nil => exact h
  | cons node nodes ih => exact ih (h.addNode node)

theorem Keyed.addEdges {g : InMemoryGraph} (h : Keyed g) (edges : List Edge)
    : Keyed (g.addEdges edges) := by
  induction edges generalizing g with
  | nil => exact h
  | cons edge edges ih => exact ih (g := g.addEdge edge) h

theorem Keyed.removeEdges {g : InMemoryGraph} (h : Keyed g) (pairs : List (NodeId × NodeId))
    : Keyed (g.removeEdges pairs) := by
  induction pairs generalizing g with
  | nil => exact h
  | cons pair pairs ih => exact ih (g := g.removeEdge pair.1 pair.2) h

@[simp]
theorem addEdges_allNodes (g : InMemoryGraph) (edges : List Edge)
    : (g.addEdges edges).allNodes = g.allNodes := by
  induction edges generalizing g with
  | nil => rfl
  | cons edge edges ih => exact ih (g.addEdge edge)

@[simp]
theorem removeEdges_allNodes (g : InMemoryGraph) (pairs : List (NodeId × NodeId))
    : (g.removeEdges pairs).allNodes = g.allNodes := by
  induction pairs generalizing g with
  | nil => rfl
  | cons pair pairs ih => exact ih (g.removeEdge pair.1 pair.2)

theorem Keyed.perm_removeNodes {g : InMemoryGraph} (h : Keyed g) (ids : List NodeId)
    : (g.removeNodes ids).allNodes ~ g.allNodes.filter fun node => node.id ∉ ids := by
  induction ids generalizing g with
  | nil => simp [InMemoryGraph.removeNodes]
  | cons id ids ih =>
    have hfirst := (h.perm_removeNode id).filter fun node => node.id ∉ ids
    rw [List.filter_filter] at hfirst
    refine ((ih (h.removeNode id)).trans hfirst).trans (.of_eq ?_)
    apply List.filter_congr
    intro node _
    grind

theorem Keyed.perm_addNodes {g : InMemoryGraph} (h : Keyed g) {nodes : List GraphNode}
    (hnodup : (nodes.map GraphNode.id).Nodup) (hpos : ∀ node ∈ nodes, node.id ≠ 0)
    : (g.addNodes nodes).allNodes
        ~
      (g.allNodes.filter fun node => node.id ∉ nodes.map GraphNode.id) ++ nodes := by
  induction nodes generalizing g with
  | nil => simp [InMemoryGraph.addNodes]
  | cons node nodes ih =>
    rw [List.map_cons, List.nodup_cons] at hnodup
    have hfirst := (h.perm_addNode (hpos node List.mem_cons_self)).filter fun other =>
      other.id ∉ nodes.map GraphNode.id
    have hrest :=
      ih (h.addNode node) hnodup.2 fun other hother => hpos other (List.mem_cons_of_mem _ hother)
    rw [List.filter_cons_of_pos (by simpa using hnodup.1), List.filter_filter] at hfirst
    refine (hrest.trans (hfirst.append_right nodes)).trans ?_
    have hsame : (g.allNodes.filter fun other =>
          decide (other.id ∉ nodes.map GraphNode.id) && decide (other.id ≠ node.id))
        = g.allNodes.filter fun other => other.id ∉ (node :: nodes).map GraphNode.id := by
      apply List.filter_congr
      intro other _
      grind
    rw [hsame, List.cons_append]
    exact List.perm_middle.symm

namespace Logs

variable {g : InMemoryGraph} {log : List Edge}

theorem addNodes (h : Logs g log) (nodes : List GraphNode) : Logs (g.addNodes nodes) log := by
  induction nodes generalizing g with
  | nil => exact h
  | cons node nodes ih => exact ih (h.addNode node)

theorem addEdges (h : Logs g log) (edges : List Edge) : Logs (g.addEdges edges) (log ++ edges) := by
  induction edges generalizing g log with
  | nil => simpa [InMemoryGraph.addEdges] using h
  | cons edge edges ih =>
    have := ih (h.addEdge edge)
    rwa [List.append_assoc, List.singleton_append] at this

theorem removeNodes (h : Logs g log) (ids : List NodeId)
    : Logs (g.removeNodes ids) (log.filter fun e => e.source ∉ ids ∧ e.target ∉ ids) := by
  induction ids generalizing g log with
  | nil => simpa [InMemoryGraph.removeNodes] using h
  | cons id ids ih =>
    have hsame : (log.filter fun e => e.source ∉ id :: ids ∧ e.target ∉ id :: ids)
        = (log.filter fun e => e.source ≠ id ∧ e.target ≠ id).filter fun e => e.source ∉ ids
          ∧ e.target ∉ ids := by
      rw [List.filter_filter]
      apply List.filter_congr
      intro e _
      grind
    rw [hsame]
    exact ih (h.removeNode id)

theorem removeEdges (h : Logs g log) (pairs : List (NodeId × NodeId))
    : Logs (g.removeEdges pairs) (log.filter fun e => (e.source, e.target) ∉ pairs) := by
  induction pairs generalizing g log with
  | nil => simpa [InMemoryGraph.removeEdges] using h
  | cons pair pairs ih =>
    have hsame : (log.filter fun e => (e.source, e.target) ∉ pair :: pairs)
        = (log.filter fun e => e.source ≠ pair.1 ∨ e.target ≠ pair.2).filter fun e =>
          (e.source, e.target) ∉ pairs := by
      rw [List.filter_filter]
      apply List.filter_congr
      intro e _
      grind
    rw [hsame]
    exact ih (h.removeEdge pair.1 pair.2)

end Logs

end InMemoryGraph
end HdlGraph
