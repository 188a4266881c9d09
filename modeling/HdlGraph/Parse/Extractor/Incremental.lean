import HdlGraph.Parse.Extractor.Numbering
import HdlGraph.Storage.Contents
import Mathlib.Data.List.Dedup

/-!
This module contains change sets: how the new extraction of a file is compared with its old nodes
and edges, and what the graph store holds after the change set was applied.
-/

namespace HdlGraph

open scoped List

structure ChangeSet where
  addedNodes : List (NodeId × GraphNode)
  removedNodeIds : List NodeId
  addedEdges : List Edge
  removedEdges : List (NodeId × NodeId)

def Edge.endpoints (e : Edge) : NodeId × NodeId := (e.source, e.target)

namespace ChangeSet

-- The order is: remove old edges, remove old nodes, add new nodes, add new edges. No step of it
-- fails on an `InMemoryGraph`.
def applyTo (cs : ChangeSet) (g : InMemoryGraph) : InMemoryGraph :=
  let g := g.removeEdges cs.removedEdges
  let g := g.removeNodes cs.removedNodeIds
  let g := g.addNodes (cs.addedNodes.map Prod.snd)
  g.addEdges cs.addedEdges

def keptEdges (cs : ChangeSet) (log : List Edge) : List Edge :=
  log.filter fun e => e.endpoints ∉ cs.removedEdges ∧ e.source ∉ cs.removedNodeIds
    ∧ e.target ∉ cs.removedNodeIds

def keptNodes (cs : ChangeSet) (nodes : List GraphNode) : List GraphNode :=
  nodes.filter fun node =>
    node.id ∉ cs.removedNodeIds ∧ node.id ∉ (cs.addedNodes.map Prod.snd).map GraphNode.id

theorem logs_applyTo (cs : ChangeSet) {g : InMemoryGraph} {log : List Edge} (h : g.Logs log)
    : (cs.applyTo g).Logs (cs.keptEdges log ++ cs.addedEdges) := by
  have hkept : cs.keptEdges log
      = (log.filter fun e => (e.source, e.target) ∉ cs.removedEdges).filter fun e =>
        e.source ∉ cs.removedNodeIds ∧ e.target ∉ cs.removedNodeIds := by
    rw [keptEdges, List.filter_filter]
    apply List.filter_congr
    intro e _
    simp only [Edge.endpoints]
    grind
  rw [hkept]
  exact (((h.removeEdges _).removeNodes _).addNodes _).addEdges _

theorem reachable_applyTo (cs : ChangeSet) {g : InMemoryGraph} (h : g.Reachable)
    : (cs.applyTo g).Reachable :=
  (((h.removeEdges _).removeNodes _).addNodes _).addEdges _

theorem perm_applyTo (cs : ChangeSet) {g : InMemoryGraph} (h : g.Keyed)
    (hnodup : ((cs.addedNodes.map Prod.snd).map GraphNode.id).Nodup)
    (hpos : ∀ node ∈ cs.addedNodes.map Prod.snd, node.id ≠ 0)
    : (cs.applyTo g).allNodes ~ cs.keptNodes g.allNodes ++ cs.addedNodes.map Prod.snd := by
  have hremove := (h.removeEdges cs.removedEdges).perm_removeNodes cs.removedNodeIds
  have hadd :=
    ((h.removeEdges cs.removedEdges).removeNodes cs.removedNodeIds).perm_addNodes hnodup hpos
  rw [InMemoryGraph.removeEdges_allNodes] at hremove
  rw [applyTo, InMemoryGraph.addEdges_allNodes]
  refine hadd.trans (List.Perm.append_right _ ((hremove.filter _).trans (.of_eq ?_)))
  rw [keptNodes, List.filter_filter]
  apply List.filter_congr
  intro node _
  grind

end ChangeSet

namespace GraphExtractor

-- The pairs come out of a hash set, so their order means nothing
def extractChangeset (ex : GraphExtractor) (tree : Cst) (fileId : Nat) (oldNodeIds : List NodeId)
    (oldEdges : List Edge) : ChangeSet × GraphExtractor :=
  let ((newNodes, newEdges), ex) := ex.extract tree fileId
  let newIds := newNodes.map GraphNode.id
  let newEdgeSet := newEdges.map Edge.endpoints
  let cs : ChangeSet := {
    addedNodes := newNodes.map fun node => (node.id, node)
    removedNodeIds := oldNodeIds.filter (· ∉ newIds)
    addedEdges := newEdges
    removedEdges := (oldEdges.map Edge.endpoints).dedup.filter (· ∉ newEdgeSet)
  }
  (cs, ex)

variable (ex : GraphExtractor) (tree : Cst) (fileId : Nat) (oldNodeIds : List NodeId)
  (oldEdges : List Edge)

@[simp]
theorem extractChangeset_addedNodes
    : (ex.extractChangeset tree fileId oldNodeIds oldEdges).1.addedNodes.map Prod.snd
        =
      (ex.extract tree fileId).1.1 := by
  simp [extractChangeset, Function.comp_def]

@[simp]
theorem extractChangeset_addedEdges
    : (ex.extractChangeset tree fileId oldNodeIds oldEdges).1.addedEdges
        = (ex.extract tree fileId).1.2 :=
  rfl

@[simp]
theorem extractChangeset_snd
    : (ex.extractChangeset tree fileId oldNodeIds oldEdges).2 = (ex.extract tree fileId).2 :=
  rfl

theorem mem_removedNodeIds_iff {id : NodeId}
    : id ∈ (ex.extractChangeset tree fileId oldNodeIds oldEdges).1.removedNodeIds
        ↔
      id ∈ oldNodeIds ∧ id ∉ (ex.extract tree fileId).1.1.map GraphNode.id := by
  simp [extractChangeset]

theorem mem_removedEdges_iff {pair : NodeId × NodeId}
    : pair ∈ (ex.extractChangeset tree fileId oldNodeIds oldEdges).1.removedEdges
        ↔
      pair ∈ oldEdges.map Edge.endpoints
        ∧ pair ∉ (ex.extract tree fileId).1.2.map Edge.endpoints := by
  simp only [extractChangeset, List.mem_filter, List.mem_dedup, decide_eq_true_eq]

theorem applyTo_extractChangeset_nil (g : InMemoryGraph)
    : (ex.extractChangeset tree fileId [] []).1.applyTo g
        =
      (g.addNodes (ex.extract tree fileId).1.1).addEdges (ex.extract tree fileId).1.2 := by
  rw [ChangeSet.applyTo, extractChangeset_addedNodes]
  rfl

theorem head?_extract : (ex.extract tree fileId).1.1.head?.map GraphNode.id = some ex.nextId := by
  rw [← List.head?_map, (extract_extracts ex tree fileId).map_id]
  rfl

theorem map_fst_addedNodes
    : (ex.extractChangeset tree fileId oldNodeIds oldEdges).1.addedNodes.map Prod.fst
        =
      (ex.extract tree fileId).1.1.map GraphNode.id := by
  simp [extractChangeset, Function.comp_def]

theorem head?_addedNodes
    : (ex.extractChangeset tree fileId oldNodeIds oldEdges).1.addedNodes.head?.map Prod.fst
        = some ex.nextId := by
  rw [← List.head?_map, map_fst_addedNodes, List.head?_map, head?_extract]

theorem extract_ids_nodup : ((ex.extract tree fileId).1.1.map GraphNode.id).Nodup := by
  rw [(extract_extracts ex tree fileId).map_id]
  exact (fileOutline tree).ids_nodup ex.nextId

theorem le_id_of_mem_extract {id : NodeId}
    (hid : id ∈ (ex.extract tree fileId).1.1.map GraphNode.id)
    : ex.nextId ≤ id ∧ id < (ex.extract tree fileId).2.nextId := by
  rw [(extract_extracts ex tree fileId).map_id] at hid
  have ⟨node, hnode, heq⟩ := List.mem_map.mp hid
  rw [← heq, (extract_extracts ex tree fileId).nextId]
  exact FileOutline.id_mem_nodesAt hnode

theorem id_ne_zero_of_mem_extract : ∀ node ∈ (ex.extract tree fileId).1.1, node.id ≠ 0 := by
  intro node hnode
  have := (le_id_of_mem_extract ex tree fileId (List.mem_map_of_mem hnode)).1
  have := ex.nextId_pos
  grind

end GraphExtractor

namespace InMemoryGraph

structure HoldsFile (g : InMemoryGraph) (oldNodes otherNodes : List GraphNode)
    (oldEdges otherEdges : List Edge)
    : Prop where
  reachable : g.Reachable
  nodes : g.allNodes ~ oldNodes ++ otherNodes
  edges : g.allEdges ~ oldEdges ++ otherEdges
  disjoint : ∀ e ∈ otherEdges, e.source ∉ oldNodes.map GraphNode.id
    ∧ e.target ∉ oldNodes.map GraphNode.id
  apart : ∀ e ∈ otherEdges, e.endpoints ∉ oldEdges.map Edge.endpoints

structure Replaced (g : InMemoryGraph) (otherNodes newNodes : List GraphNode)
    (otherEdges newEdges : List Edge)
    : Prop where
  nodes : g.allNodes ~ otherNodes ++ newNodes
  edges : g.allEdges ~ otherEdges ++ newEdges

/--
An old edge is left in the graph: it joins two ids that a new edge joins, and neither id is dropped.
-/
def Survives (oldNodes newNodes : List GraphNode) (newEdges : List Edge) (e : Edge) : Prop :=
  e.endpoints ∈ newEdges.map Edge.endpoints
    ∧ ¬(e.source ∈ oldNodes.map GraphNode.id ∧ e.source ∉ newNodes.map GraphNode.id)
    ∧ ¬(e.target ∈ oldNodes.map GraphNode.id ∧ e.target ∉ newNodes.map GraphNode.id)

instance (oldNodes newNodes : List GraphNode) (newEdges : List Edge)
    : DecidablePred (Survives oldNodes newNodes newEdges) :=
      fun _ => inferInstanceAs (Decidable (_ ∧ _ ∧ _))

namespace HoldsFile

variable {g : InMemoryGraph} {oldNodes otherNodes : List GraphNode}
  {oldEdges otherEdges : List Edge}

theorem id_notMem (h : HoldsFile g oldNodes otherNodes oldEdges otherEdges) {node : GraphNode}
    (hnode : node ∈ otherNodes)
    : node.id ∉ oldNodes.map GraphNode.id := by
  have hnodup := h.reachable.keyed.ids_nodup
  rw [(h.nodes.map GraphNode.id).nodup_iff, List.map_append] at hnodup
  intro hold
  exact (List.nodup_append.mp hnodup).2.2 _ hold _ (List.mem_map_of_mem hnode) rfl

theorem perm_nodes (h : HoldsFile g oldNodes otherNodes oldEdges otherEdges) (ex : GraphExtractor)
    (tree : Cst) (fileId : Nat)
    : ((ex.extractChangeset tree fileId (oldNodes.map GraphNode.id) oldEdges).1.applyTo g).allNodes
        ~
      (otherNodes.filter fun node => node.id ∉ (ex.extract tree fileId).1.1.map GraphNode.id)
        ++ (ex.extract tree fileId).1.1 := by
  have hnodup := ex.extract_ids_nodup tree fileId
  have hpos := ex.id_ne_zero_of_mem_extract tree fileId
  rw [← ex.extractChangeset_addedNodes tree fileId (oldNodes.map GraphNode.id) oldEdges]
    at hnodup hpos
  have happly := ChangeSet.perm_applyTo _ h.reachable.keyed hnodup hpos
  rw [GraphExtractor.extractChangeset_addedNodes] at happly
  refine happly.trans (List.Perm.append_right _ ((h.nodes.filter _).trans (.of_eq ?_)))
  rw [List.filter_append, GraphExtractor.extractChangeset_addedNodes]
  have hold : (oldNodes.filter fun node =>
      node.id ∉ (ex.extractChangeset tree fileId (oldNodes.map GraphNode.id)
          oldEdges).1.removedNodeIds
        ∧ node.id ∉ (ex.extract tree fileId).1.1.map GraphNode.id) = [] := by
    rw [List.filter_eq_nil_iff]
    intro node hnode
    have := List.mem_map_of_mem (f := GraphNode.id) hnode
    simp only [GraphExtractor.mem_removedNodeIds_iff, decide_eq_true_eq]
    grind
  rw [hold, List.nil_append]
  apply List.filter_congr
  intro node hnode
  have := h.id_notMem hnode
  simp only [GraphExtractor.mem_removedNodeIds_iff, decide_eq_decide]
  grind

theorem perm_edges (h : HoldsFile g oldNodes otherNodes oldEdges otherEdges) (ex : GraphExtractor)
    (tree : Cst) (fileId : Nat)
    : ((ex.extractChangeset tree fileId (oldNodes.map GraphNode.id) oldEdges).1.applyTo g).allEdges
        ~
      (oldEdges.filter fun e =>
        Survives oldNodes (ex.extract tree fileId).1.1 (ex.extract tree fileId).1.2 e)
        ++ otherEdges ++ (ex.extract tree fileId).1.2 := by
  have ⟨log, hlog⟩ := h.reachable.logs
  have happly :=
    (ChangeSet.logs_applyTo (ex.extractChangeset tree fileId (oldNodes.map GraphNode.id) oldEdges).1
    hlog).perm_allEdges
  have hperm := hlog.perm_allEdges.symm.trans h.edges
  refine happly.trans (List.Perm.append_right _ ((hperm.filter _).trans (.of_eq ?_)))
  rw [List.filter_append]
  congr 1
  . apply List.filter_congr
    intro e he
    have := List.mem_map_of_mem (f := Edge.endpoints) he
    simp only [GraphExtractor.mem_removedNodeIds_iff, GraphExtractor.mem_removedEdges_iff, Survives]
    grind
  . rw [List.filter_eq_self]
    intro e he
    have := h.disjoint e he
    have := h.apart e he
    simp only [GraphExtractor.mem_removedNodeIds_iff, GraphExtractor.mem_removedEdges_iff,
      decide_eq_true_eq]
    grind

end HoldsFile

/--
A change set replaces the file exactly if the new ids are not those of other nodes and no old edge
joins the same two ids as a new edge, unless one of these ids is an old one that is dropped.
-/
theorem replaced_applyTo_iff {g : InMemoryGraph} {oldNodes otherNodes : List GraphNode}
    {oldEdges otherEdges : List Edge} (h : HoldsFile g oldNodes otherNodes oldEdges otherEdges)
    (ex : GraphExtractor) (tree : Cst) (fileId : Nat)
    : Replaced ((ex.extractChangeset tree fileId (oldNodes.map GraphNode.id) oldEdges).1.applyTo g)
          otherNodes (ex.extract tree fileId).1.1 otherEdges (ex.extract tree fileId).1.2
        ↔
      (∀ node ∈ otherNodes, node.id ∉ (ex.extract tree fileId).1.1.map GraphNode.id)
        ∧ ∀ e ∈ oldEdges,
          ¬Survives oldNodes (ex.extract tree fileId).1.1 (ex.extract tree fileId).1.2 e := by
  have hnodes := h.perm_nodes ex tree fileId
  have hedges := h.perm_edges ex tree fileId
  constructor
  . intro hreplaced
    constructor
    . have hlength := (hreplaced.nodes.symm.trans hnodes).length_eq
      rw [List.length_append, List.length_append, Nat.add_right_cancel_iff] at hlength
      intro node hnode
      simpa using List.length_filter_eq_length_iff.mp hlength.symm node hnode
    . have hlength := (hreplaced.edges.symm.trans hedges).length_eq
      simp only [List.length_append] at hlength
      have hnone : (oldEdges.filter fun e =>
          Survives oldNodes (ex.extract tree fileId).1.1 (ex.extract tree fileId).1.2 e) = [] :=
        List.eq_nil_of_length_eq_zero (by omega)
      intro e he
      simpa using List.filter_eq_nil_iff.mp hnone e he
  . intro ⟨hids, hsurvive⟩
    constructor
    . rw [List.filter_eq_self.mpr fun node hnode => by simpa using hids node hnode] at hnodes
      exact hnodes
    . rw [List.filter_eq_nil_iff.mpr fun e he => by simpa using hsurvive e he, List.nil_append]
        at hedges
      exact hedges

def packageFile : Cst :=
  .node .other [] "package p; endpackage".toList ⟨0, 0⟩ [
    .node .packageDeclaration [] "package p; endpackage".toList ⟨0, 0⟩ [
      .node .simpleIdentifier [.name] "p".toList ⟨0, 8⟩ []]]

theorem replaced_applyTo_packageFile
    : let first := GraphExtractor.new.extract packageFile 0
      let second := first.2.extract packageFile 0
      let third := second.2.extract packageFile 0
      let g := (new.addNodes (first.1.1 ++ second.1.1)).addEdges (first.1.2 ++ second.1.2)
      Replaced ((second.2.extractChangeset packageFile 0 (first.1.1.map GraphNode.id)
        first.1.2).1.applyTo g)
        second.1.1 third.1.1 second.1.2 third.1.2 := by
  intro first second third g
  have hfile : HoldsFile g first.1.1 second.1.1 first.1.2 second.1.2 := {
    reachable := (Reachable.new.addNodes _).addEdges _
    nodes := by decide
    edges := by decide
    disjoint := by decide
    apart := by decide
  }
  exact (replaced_applyTo_iff hfile second.2 packageFile 0).mpr ⟨by decide, by decide⟩

-- Extracting the same source again with a fresh extractor doubles its edges
theorem applyTo_doubles_edges
    : let old := (GraphExtractor.new.extract packageFile 0).1
      let g := (new.addNodes old.1).addEdges old.2
      HoldsFile g old.1 [] old.2 []
        ∧
      ¬Replaced ((GraphExtractor.new.extractChangeset packageFile 0 (old.1.map GraphNode.id)
        old.2).1.applyTo g)
        [] old.1 [] old.2 := by
  intro old g
  constructor
  . exact {
      reachable := (Reachable.new.addNodes _).addEdges _
      nodes := by decide
      edges := by decide
      disjoint := by decide
      apart := by decide
    }
  . intro hreplaced
    exact absurd hreplaced.edges (by decide)

end InMemoryGraph
end HdlGraph
