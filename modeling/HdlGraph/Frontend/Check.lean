import HdlGraph.Core.Helpers
import HdlGraph.Storage.Contents

/-!
This module contains what the consistency check and the JSON export see of the edges: the edges that
leave stored nodes, and no others.
-/

namespace HdlGraph

open scoped List

/-! ## The three loops -/

-- `nodes` is `all_nodes()`, in the order in which the map happens to give them
def edgesOfNodes (g : InMemoryGraph) (nodes : List GraphNode) : List Edge :=
  nodes.flatMap fun node => g.getOutgoing node.id

def isDangling (nodeIds : List NodeId) (edge : Edge) : Bool :=
  edge.source ∉ nodeIds || edge.target ∉ nodeIds

def danglingLine (edge : Edge) : Text :=
  "  edge ".toList ++ (Nat.repr edge.source).toList ++ " -> ".toList
    ++ (Nat.repr edge.target).toList ++ " (".toList
    ++ edge.edgeType.name ++ ")".toList

def cmdCheckDangling (g : InMemoryGraph) (nodes : List GraphNode) : Nat × List Text :=
  let nodeIds := nodes.map GraphNode.id
  let danglingDetails := ((edgesOfNodes g nodes).filter (isDangling nodeIds)).map danglingLine
  (danglingDetails.length, danglingDetails)

namespace CheckTool

def runDangling (g : InMemoryGraph) (nodes : List GraphNode) : Nat × List Text :=
  let nodeIds := nodes.map GraphNode.id
  let dangling := (edgesOfNodes g nodes).filter (isDangling nodeIds)
  (dangling.length, dangling.map danglingLine)

end CheckTool

namespace JsonExporter

structure EdgeValue where
  source : NodeId
  target : NodeId
  type : Text
  deriving DecidableEq, Repr

def edgeValue (edge : Edge) : EdgeValue := ⟨edge.source, edge.target, edge.edgeType.name⟩

def exportEdges (g : InMemoryGraph) (nodes : List GraphNode) : List EdgeValue :=
  nodes.flatMap fun node => (g.getOutgoing node.id).map edgeValue

end JsonExporter

/-! ## What they see -/

def Dangling (g : InMemoryGraph) (edge : Edge) : Bool :=
  (g.getNode edge.source).isNone || (g.getNode edge.target).isNone

/--
The counts are those of all stored edges without a stored endpoint, and every stored edge is
exported.
-/
structure SeesEveryEdge (g : InMemoryGraph) (nodes : List GraphNode) : Prop where
  cmdCheck : (cmdCheckDangling g nodes).1 = (g.allEdges.filter (Dangling g)).length
  checkTool : (CheckTool.runDangling g nodes).1 = (g.allEdges.filter (Dangling g)).length
  exported : JsonExporter.exportEdges g nodes ~ g.allEdges.map JsonExporter.edgeValue
  length : (JsonExporter.exportEdges g nodes).length = g.edgeCount

section Nodes

variable {g : InMemoryGraph} {nodes : List GraphNode}

theorem mem_map_id_iff (h : g.Keyed) (hnodes : nodes ~ g.allNodes) (id : NodeId)
    : id ∈ nodes.map GraphNode.id ↔ (g.getNode id).isSome := by
  rw [(hnodes.map GraphNode.id).mem_iff, List.mem_map, Option.isSome_iff_exists]
  simp only [h.getNode_eq_some_iff]

theorem perm_edgesOfNodes {log : List Edge} (h : g.Keyed) (hlog : g.Logs log)
    (hnodes : nodes ~ g.allNodes)
    : edgesOfNodes g nodes ~ log.filter fun e => (g.getNode e.source).isSome := by
  have hnodup : (nodes.map GraphNode.id).Nodup :=
    (hnodes.map GraphNode.id).nodup_iff.mpr h.ids_nodup
  have hperm := hlog.perm_flatMap_getOutgoing hnodup
  rw [List.flatMap_map] at hperm
  refine hperm.trans (.of_eq ?_)
  apply List.filter_congr
  intro e _
  have hmem := mem_map_id_iff h hnodes e.source
  simp only [hmem, Bool.decide_eq_true]

theorem isDangling_eq (h : g.Keyed) (hnodes : nodes ~ g.allNodes) (edge : Edge)
    : isDangling (nodes.map GraphNode.id) edge = Dangling g edge := by
  have hsource := mem_map_id_iff h hnodes edge.source
  have htarget := mem_map_id_iff h hnodes edge.target
  unfold isDangling Dangling
  cases hs : g.getNode edge.source <;> cases ht : g.getNode edge.target <;> simp_all

theorem exportEdges_eq (g : InMemoryGraph) (nodes : List GraphNode)
    : JsonExporter.exportEdges g nodes = (edgesOfNodes g nodes).map JsonExporter.edgeValue := by
  rw [JsonExporter.exportEdges, edgesOfNodes, List.map_flatMap]

end Nodes

theorem seesEveryEdge_iff {g : InMemoryGraph} (h : g.Reachable) {nodes : List GraphNode}
    (hnodes : nodes ~ g.allNodes)
    : SeesEveryEdge g nodes ↔ ∀ e ∈ g.allEdges, (g.getNode e.source).isSome := by
  obtain ⟨log, hlog⟩ := h.logs
  have hseen := perm_edgesOfNodes h.keyed hlog hnodes
  constructor
  . intro hsees e he
    have hlength := hsees.length
    rw [exportEdges_eq, List.length_map, hseen.length_eq, hlog.edgeCount_eq,
      List.length_filter_eq_length_iff] at hlength
    exact hlength e (hlog.perm_allEdges.mem_iff.mp he)
  . intro hstored
    have hfilter : (log.filter fun e => (g.getNode e.source).isSome) = log :=
      List.filter_eq_self.mpr fun e he => hstored e (hlog.perm_allEdges.mem_iff.mpr he)
    have hperm : edgesOfNodes g nodes ~ g.allEdges :=
      (hseen.trans (.of_eq hfilter)).trans hlog.perm_allEdges.symm
    have hcount : ((edgesOfNodes g nodes).filter (isDangling (nodes.map GraphNode.id))).length
        = (g.allEdges.filter (Dangling g)).length := by
      rw [funext (isDangling_eq h.keyed hnodes)]
      exact (hperm.filter _).length_eq
    refine ⟨?_, hcount, ?_, ?_⟩
    . rw [cmdCheckDangling, List.length_map]
      exact hcount
    . rw [exportEdges_eq]
      exact hperm.map _
    . rw [exportEdges_eq, List.length_map, hperm.length_eq, hlog.perm_allEdges.length_eq,
        hlog.edgeCount_eq]

def missingTargetOps : List GraphOp := [
  .addNode { id := 1, kind := .sourceFile, scopeId := none, fileId := 0, line := 1, col := 0 },
  .addEdge { source := 1, target := 2, edgeType := .contains }
]

theorem seesEveryEdge_missingTarget
    : SeesEveryEdge (InMemoryGraph.run missingTargetOps .new)
        (InMemoryGraph.run missingTargetOps .new).allNodes :=
  (seesEveryEdge_iff (InMemoryGraph.Reachable.new.run missingTargetOps) (List.Perm.refl _)).mpr
  (by decide)

def missingSourceOps : List GraphOp := [
  .addNode { id := 1, kind := .sourceFile, scopeId := none, fileId := 0, line := 1, col := 0 },
  .addEdge { source := 2, target := 1, edgeType := .contains }
]

-- The only edge dangles, but none is counted and none exported
theorem not_seesEveryEdge_missingSource
    : (InMemoryGraph.run missingSourceOps .new).Reachable
        ∧ ¬SeesEveryEdge (InMemoryGraph.run missingSourceOps .new)
          (InMemoryGraph.run missingSourceOps .new).allNodes := by
  refine ⟨InMemoryGraph.Reachable.new.run missingSourceOps, ?_⟩
  intro h
  have hcount := h.cmdCheck
  revert hcount
  decide

end HdlGraph
