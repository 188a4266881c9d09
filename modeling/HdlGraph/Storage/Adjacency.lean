import HdlGraph.Storage.Memory

/-!
This module relates the two adjacency indexes of the graph store to one log of edges: the stored
edges in the order they were added, without those that were removed since.
-/

namespace HdlGraph

namespace GraphOp

def applyLog (log : List Edge) : GraphOp → List Edge
  | addEdge edge => log ++ [edge]
  | removeNode id => log.filter fun e => e.source ≠ id ∧ e.target ≠ id
  | removeEdge source target => log.filter fun e => e.source ≠ source ∨ e.target ≠ target
  | _ => log

end GraphOp

namespace InMemoryGraph

structure Logs (g : InMemoryGraph) (log : List Edge) : Prop where
  outgoing : Buckets.Files g.bySource Edge.source log
  incoming : Buckets.Files g.byTarget Edge.target log

def runLog (ops : List GraphOp) (log : List Edge) : List Edge := ops.foldl GraphOp.applyLog log

def allEdges (g : InMemoryGraph) : List Edge := Buckets.items g.bySource

namespace Logs

variable {g : InMemoryGraph} {log : List Edge}

theorem new : Logs new [] where
  outgoing := .empty
  incoming := .empty

theorem addNode (h : Logs g log) (node : GraphNode) : Logs (g.addNode node).2 log where
  outgoing := h.outgoing.touch _
  incoming := h.incoming.touch _

theorem addNodeWithName (h : Logs g log) (node : GraphNode) (name : Text)
    : Logs (g.addNodeWithName node name).2 log where
  outgoing := h.outgoing.touch _
  incoming := h.incoming.touch _

theorem addEdge (h : Logs g log) (edge : Edge) : Logs (g.addEdge edge) (log ++ [edge]) where
  outgoing := h.outgoing.push edge
  incoming := h.incoming.push edge

theorem removeEdge (h : Logs g log) (source target : NodeId)
    : Logs (g.removeEdge source target) (log.filter fun e => e.source ≠ source
        ∨ e.target ≠ target) where
  outgoing := by
    have same : (log.filter fun e => e.source ≠ source ∨ e.target ≠ target)
        = log.filter fun e => e.source ≠ source
          ∨ decide (e.source ≠ source ∨ e.target ≠ target) = true := by
      apply List.filter_congr
      intro e _
      by_cases hs : e.source = source <;> simp [hs]
    rw [same]
    exact h.outgoing.retain source _
  incoming := by
    have same : (log.filter fun e => e.source ≠ source ∨ e.target ≠ target)
        = log.filter fun e => e.target ≠ target
          ∨ decide (e.source ≠ source ∨ e.target ≠ target) = true := by
      apply List.filter_congr
      intro e _
      by_cases ht : e.target = target <;> simp [ht]
    rw [same]
    exact h.incoming.retain target _

theorem removeNode (h : Logs g log) (id : NodeId)
    : Logs (g.removeNode id) (log.filter fun e => e.source ≠ id ∧ e.target ≠ id) := by
  -- After the outgoing edges are gone from the target lists
  have targets : Buckets.Files
      (((g.bySource.getD id []).map (·.target)).foldl
        (fun m target => Buckets.retain m target fun e => e.source ≠ id) g.byTarget)
      Edge.target (log.filter fun e => e.source ≠ id) := by
    apply h.incoming.retain_all
    intro e he hsource
    rw [h.outgoing.getD_eq, List.mem_map]
    exact ⟨e, List.mem_filter.mpr ⟨he, by simpa using hsource⟩, rfl⟩
  have sources : Buckets.Files (g.bySource.remove id) Edge.source
      (log.filter fun e => e.source ≠ id) :=
    h.outgoing.remove id
  have both : (log.filter fun e => e.source ≠ id ∧ e.target ≠ id)
      = (log.filter fun e => e.source ≠ id).filter fun e => e.target ≠ id := by
    simp [List.filter_filter, Bool.and_comm]
  rw [both]
  constructor
  . apply sources.retain_all
    intro e he htarget
    rw [targets.getD_eq, List.mem_map]
    exact ⟨e, List.mem_filter.mpr ⟨he, by simpa using htarget⟩, rfl⟩
  . exact targets.remove id

theorem apply (h : Logs g log) (op : GraphOp) : Logs (op.apply g) (op.applyLog log) := by
  cases op with
  | intern s => exact ⟨h.outgoing, h.incoming⟩
  | addNode node => exact h.addNode node
  | addNodeWithName node name => exact h.addNodeWithName node name
  | addEdge edge => exact h.addEdge edge
  | removeNode id => exact h.removeNode id
  | removeEdge source target => exact h.removeEdge source target

theorem run (h : Logs g log) (ops : List GraphOp) : Logs (run ops g) (runLog ops log) := by
  induction ops generalizing g log with
  | nil => exact h
  | cons op ops ih => exact ih (h.apply op)

theorem getOutgoing_eq (h : Logs g log) (s : NodeId)
    : g.getOutgoing s = log.filter fun e => e.source = s :=
  h.outgoing s

theorem getIncoming_eq (h : Logs g log) (t : NodeId)
    : g.getIncoming t = log.filter fun e => e.target = t :=
  h.incoming t

theorem perm_allEdges (h : Logs g log) : g.allEdges.Perm log := h.outgoing.perm_items

theorem edgeCount_eq (h : Logs g log) : g.edgeCount = log.length := h.outgoing.size_eq

theorem mem_getOutgoing (h : Logs g log) {s : NodeId} {e : Edge}
    : e ∈ g.getOutgoing s ↔ e ∈ log ∧ e.source = s := by
  simp [h.getOutgoing_eq]

theorem mem_getIncoming (h : Logs g log) {t : NodeId} {e : Edge}
    : e ∈ g.getIncoming t ↔ e ∈ log ∧ e.target = t := by
  simp [h.getIncoming_eq]

end Logs

theorem Reachable.logs {g : InMemoryGraph} (h : Reachable g) : ∃ log : List Edge, Logs g log := by
  have ⟨ops, hops⟩ := h
  exact ⟨runLog ops [], hops ▸ Logs.new.run ops⟩

def incomingCount (g : InMemoryGraph) : Nat :=
  g.byTarget.keys.foldr (fun t n => (g.getIncoming t).length + n) 0

theorem incomingCount_eq_size (g : InMemoryGraph) : g.incomingCount = Buckets.size g.byTarget := by
  unfold incomingCount Buckets.size getIncoming
  rw [← Dict.keys_eq, List.foldr_map]
  apply List.foldr_ext
  intro e he n
  simp [Dict.getD, Dict.mem_toList_iff.mp he]

structure Mirrored (g : InMemoryGraph) : Prop where
  source_eq : ∀ s : NodeId, ∀ e ∈ g.bySource.getD s [], e.source = s
  target_eq : ∀ t : NodeId, ∀ e ∈ g.byTarget.getD t [], e.target = t
  mirror : ∀ s t : NodeId,
    (g.bySource.getD s []).filter (fun e => e.target = t)
      =
    (g.byTarget.getD t []).filter (fun e => e.source = s)
  count_eq : ∀ e : Edge, (g.getOutgoing e.source).count e = (g.getIncoming e.target).count e
  edgeCount_eq : g.edgeCount = g.incomingCount

theorem Logs.mirrored {g : InMemoryGraph} {log : List Edge} (h : Logs g log) : Mirrored g where
  source_eq := fun _ _ he => h.outgoing.key_eq he
  target_eq := fun _ _ he => h.incoming.key_eq he
  mirror := by
    intro s t
    rw [h.outgoing.getD_eq, h.incoming.getD_eq, List.filter_filter, List.filter_filter]
    apply List.filter_congr
    intro e _
    rw [Bool.and_comm]
  count_eq := by
    intro e
    rw [h.getOutgoing_eq, h.getIncoming_eq, List.count_filter (by simp),
      List.count_filter (by simp)]
  edgeCount_eq := by
    rw [incomingCount_eq_size, h.edgeCount_eq, h.incoming.size_eq]

/-- In every state the store can reach, the two adjacency indexes mirror each other. -/
theorem run_mirrored (ops : List GraphOp) : Mirrored (run ops new) :=
  (Logs.new.run ops).mirrored

end InMemoryGraph
end HdlGraph
