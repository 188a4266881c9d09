import HdlGraph.Storage.Contents
import HdlGraph.Storage.NameIndex

/-!
This module contains what one call does to the nodes of the graph store: the removal of a node with
its edges, and the id under which an added node is stored. Zero asks for a fresh id but is also the
first one the counter hands out, so a node under zero cannot be written back.
-/

namespace HdlGraph
namespace InMemoryGraph

variable {g : InMemoryGraph}

theorem getNode_removeNode (g : InMemoryGraph) (id id' : NodeId)
    : (g.removeNode id).getNode id' = if id' = id then none else g.getNode id' :=
  Dict.get?_remove g.nodes id id'

theorem getNode_addNode (g : InMemoryGraph) (node : GraphNode) (id : NodeId)
    : (g.addNode node).2.getNode id
        = if id = g.storeId node then some { node with id := g.storeId node } else g.getNode id :=
  Dict.get?_insert g.nodes (g.storeId node) id _

theorem nextId_addNode (g : InMemoryGraph) (node : GraphNode)
    : (g.addNode node).2.nextId
        =
      if g.nextId ≤ g.storeId node then (g.storeId node + 1) % 2 ^ 64 else g.nextId :=
  rfl

/-! ## Removal -/

theorem filter_getByInternedName_removeNode (g : InMemoryGraph) (id : NodeId) (k : Nat)
    : ((g.removeNode id).getByInternedName k).filter (· ≠ id)
        = (g.getByInternedName k).filter (· ≠ id) := by
  rw [getByInternedName_removeNode]
  split
  . simp
  . rfl

theorem length_filter_incident (log : List Edge) (id : NodeId)
    : (log.filter fun e => e.source ≠ id ∧ e.target ≠ id).length
        + ((log.filter fun e => e.source = id).length
        + (log.filter fun e => e.source ≠ id && e.target = id).length)
        = log.length := by
  induction log with
  | nil => rfl
  | cons e log ih =>
    by_cases hsource : e.source = id
    . simp [hsource] at ih ⊢
      omega
    . by_cases htarget : e.target = id
      . simp [hsource, htarget] at ih ⊢
        omega
      . simp [hsource, htarget] at ih ⊢
        omega

/--
Removing a node removes it, the edges at it and its id under its name, and nothing else; a loop
counts as one edge.
-/
theorem removeNode_exact (h : Reachable g) (id : NodeId)
    : (g.removeNode id).getNode id = none
      ∧ (∀ id', id' ≠ id → (g.removeNode id).getNode id' = g.getNode id')
      ∧ (∀ k, ∀ e ∈ (g.removeNode id).getOutgoing k ++ (g.removeNode id).getIncoming k,
          e.source ≠ id ∧ e.target ≠ id)
      ∧ (∀ k, (g.removeNode id).getOutgoing k = (g.getOutgoing k).filter fun e => e.source ≠ id
          ∧ e.target ≠ id)
      ∧ (∀ k, (g.removeNode id).getIncoming k = (g.getIncoming k).filter fun e => e.source ≠ id
          ∧ e.target ≠ id)
      ∧ (g.removeNode id).edgeCount
          + ((g.getOutgoing id).length + ((g.getIncoming id).filter fun e => e.source ≠ id).length)
          = g.edgeCount
      ∧ ∀ k, ((g.removeNode id).getByInternedName k).filter (· ≠ id)
        = (g.getByInternedName k).filter (· ≠ id) := by
  obtain ⟨log, hlog⟩ := h.logs
  have hrest := hlog.removeNode id
  have houtgoing (k : NodeId)
      : (g.removeNode id).getOutgoing k = (g.getOutgoing k).filter fun e => e.source ≠ id
          ∧ e.target ≠ id := by
    rw [hrest.getOutgoing_eq, hlog.getOutgoing_eq, List.filter_filter, List.filter_filter]
    simp only [Bool.and_comm]
  have hincoming (k : NodeId)
      : (g.removeNode id).getIncoming k = (g.getIncoming k).filter fun e => e.source ≠ id
          ∧ e.target ≠ id := by
    rw [hrest.getIncoming_eq, hlog.getIncoming_eq, List.filter_filter, List.filter_filter]
    simp only [Bool.and_comm]
  refine ⟨?_, ?_, ?_, houtgoing, hincoming, ?_, filter_getByInternedName_removeNode g id⟩
  . rw [getNode_removeNode, if_pos rfl]
  . intro id' hid
    rw [getNode_removeNode, if_neg hid]
  . intro k e he
    rw [houtgoing, hincoming, ← List.filter_append, List.mem_filter] at he
    exact of_decide_eq_true he.2
  . rw [hrest.edgeCount_eq, hlog.edgeCount_eq]
    rw [hlog.getOutgoing_eq, hlog.getIncoming_eq, List.filter_filter]
    exact length_filter_incident log id

theorem removeNode_exact_loop
    : (run [.addEdge ⟨7, 7, .calls⟩, .addEdge ⟨7, 8, .calls⟩, .addEdge ⟨8, 9, .calls⟩,
        .removeNode 7] new).edgeCount = 1 := by
  have h :=
    (removeNode_exact
      (g := run [.addEdge ⟨7, 7, .calls⟩, .addEdge ⟨7, 8, .calls⟩, .addEdge ⟨8, 9, .calls⟩] new)
    ⟨_, rfl⟩ 7).2.2.2.2.2.1
  exact Nat.add_right_cancel (h.trans (show _ = 1 + 2 by decide))

/-! ## Adding -/

def StoresElsewhere (g : InMemoryGraph) : GraphOp → Prop
  | .addNode node => g.storeId node ≠ 0 ∧ g.storeId node + 1 < 2 ^ 64
  | .addNodeWithName node _ => g.storeId node ≠ 0 ∧ g.storeId node + 1 < 2 ^ 64
  | _ => True

def CounterFits (g : InMemoryGraph) : GraphOp → Prop
  | .addNode node => g.storeId node ≥ g.nextId → g.storeId node + 1 < 2 ^ 64
  | .addNodeWithName node _ => g.storeId node ≥ g.nextId → g.storeId node + 1 < 2 ^ 64
  | _ => True

structure AddsRight (g : InMemoryGraph) : Prop where
  auto : ∀ node : GraphNode, node.id = 0 →
    g.getNode (g.addNode node).1 = none
      ∧ (g.addNode node).2.nodeCount = g.nodeCount + 1
      ∧ ∀ id, id ≠ (g.addNode node).1 → (g.addNode node).2.getNode id = g.getNode id
  again : ∀ (i : NodeId) (node changed : GraphNode), g.getNode i = some node →
    changed.id = node.id →
    (g.addNode changed).1 = i
      ∧ (g.addNode changed).2.nodeCount = g.nodeCount
      ∧ (g.addNode changed).2.getNode i = some changed
      ∧ ∀ id, id ≠ i → (g.addNode changed).2.getNode id = g.getNode id

structure Below (g : InMemoryGraph) : Prop where
  keyed : Keyed g
  ne_zero : g.getNode 0 = none
  lt_nextId : ∀ (id : NodeId) (node : GraphNode), g.getNode id = some node → id < g.nextId

theorem nodeCount_addNode_of_none {node : GraphNode} (h : g.getNode (g.storeId node) = none)
    : (g.addNode node).2.nodeCount = g.nodeCount + 1 := by
  have hperm := Dict.perm_toList_insert g.nodes (g.storeId node) { node with id := g.storeId node }
  rw [Dict.filter_toList_of_get?_eq_none h] at hperm
  exact hperm.length_eq

theorem nodeCount_addNode_of_some {node stored : GraphNode}
    (h : g.getNode (g.storeId node) = some stored)
    : (g.addNode node).2.nodeCount = g.nodeCount := by
  have hperm := Dict.perm_toList_insert g.nodes (g.storeId node) { node with id := g.storeId node }
  have hstored := Dict.perm_toList_of_get?_eq_some h
  exact hperm.length_eq.trans hstored.length_eq.symm

theorem Below.addsRight (h : Below g) : AddsRight g where
  auto := by
    intro node hzero
    have hstore : g.storeId node = g.nextId := if_pos hzero
    have hnone : g.getNode (g.storeId node) = none := by
      rw [hstore]
      cases hget : g.getNode g.nextId with
      | none => rfl
      | some stored => exact absurd (h.lt_nextId _ _ hget) (Nat.lt_irrefl _)
    refine ⟨hnone, nodeCount_addNode_of_none hnone, fun id hid => ?_⟩
    rw [addNode_fst] at hid
    rw [getNode_addNode, if_neg hid]
  again := by
    intro i node changed hget hid
    have hi : changed.id = i := hid.trans (h.keyed i node hget)
    have hne : i ≠ 0 := by
      rintro rfl
      rw [h.ne_zero] at hget
      contradiction
    have hstore : g.storeId changed = i := by
      unfold storeId
      rw [hi, if_neg hne]
    refine ⟨hstore, nodeCount_addNode_of_some (hstore.symm ▸ hget), ?_, fun id hid => ?_⟩
    . rw [getNode_addNode, if_pos hstore.symm, hstore, ← hi]
    . rw [getNode_addNode, hstore, if_neg hid]

namespace Below

theorem new : Below new where
  keyed := .new
  ne_zero := rfl
  lt_nextId := nofun

theorem addNode (h : Below g) {node : GraphNode} (hne : g.storeId node ≠ 0)
    (hlt : g.storeId node + 1 < 2 ^ 64)
    : Below (g.addNode node).2 where
  keyed := h.keyed.addNode node
  ne_zero := by
    rw [getNode_addNode, if_neg hne.symm]
    exact h.ne_zero
  lt_nextId := by
    intro id stored hget
    rw [nextId_addNode, Nat.mod_eq_of_lt hlt]
    rw [getNode_addNode] at hget
    by_cases hle : g.nextId ≤ g.storeId node
    . rw [if_pos hle]
      split at hget
      . next hid => exact hid ▸ Nat.lt_succ_self _
      . exact Nat.lt_succ_of_lt (Nat.lt_of_lt_of_le (h.lt_nextId id stored hget) hle)
    . rw [if_neg hle]
      split at hget
      . next hid => exact hid ▸ Nat.lt_of_not_le hle
      . exact h.lt_nextId id stored hget

theorem removeNode (h : Below g) (id : NodeId) : Below (g.removeNode id) where
  keyed := h.keyed.removeNode id
  ne_zero := by
    rw [getNode_removeNode, h.ne_zero]
    exact ite_self none
  lt_nextId := by
    intro id' stored hget
    rw [getNode_removeNode] at hget
    split at hget
    . contradiction
    . exact h.lt_nextId id' stored hget

theorem apply (h : Below g) {op : GraphOp} (hop : StoresElsewhere g op) : Below (op.apply g) := by
  cases op with
  | intern s => exact ⟨h.keyed, h.ne_zero, h.lt_nextId⟩
  | addNode node => exact h.addNode hop.1 hop.2
  | addNodeWithName node name =>
    have hadd := h.addNode hop.1 hop.2
    exact ⟨hadd.keyed, hadd.ne_zero, hadd.lt_nextId⟩
  | addEdge edge => exact ⟨h.keyed, h.ne_zero, h.lt_nextId⟩
  | removeNode id => exact h.removeNode id
  | removeEdge source target => exact ⟨h.keyed, h.ne_zero, h.lt_nextId⟩

theorem run (h : Below g) {ops : List GraphOp} (hops : Along StoresElsewhere ops g)
    : Below (run ops g) := by
  induction ops generalizing g with
  | nil => exact h
  | cons op ops ih => exact ih (h.apply hops.1) hops.2

end Below

theorem storesElsewhere_of_addsRight (hnext : g.nextId < 2 ^ 64) {op : GraphOp}
    (hfits : CounterFits g op) (hright : AddsRight (op.apply g))
    : StoresElsewhere g op := by
  have hadd : ∀ node : GraphNode, (g.storeId node ≥ g.nextId → g.storeId node + 1 < 2 ^ 64) →
      (∀ stored, (g.addNode node).2.getNode 0 = some stored → stored.id = 0 →
        g.storeId node = 0 → (g.addNode node).2.nextId = 0) →
      g.storeId node ≠ 0 ∧ g.storeId node + 1 < 2 ^ 64 := by
    intro node hfits hzero
    constructor
    . intro hstore
      have hget := getNode_addNode g node 0
      rw [if_pos hstore.symm] at hget
      have hnext' := hzero _ hget hstore hstore
      have hcounter : g.nextId = 0 := by
        unfold storeId at hstore
        split at hstore
        . exact hstore
        . next hne => exact absurd hstore hne
      have hone : (g.addNode node).2.nextId = 1 := by
        rw [nextId_addNode, hstore, hcounter]
        rfl
      exact Nat.one_ne_zero (hone.symm.trans hnext')
    . by_cases hle : g.nextId ≤ g.storeId node
      . exact hfits hle
      . exact Nat.lt_of_le_of_lt (Nat.lt_of_not_le hle) hnext
  cases op with
  | intern s => trivial
  | addNode node =>
    refine hadd node hfits fun stored hget hid _ => ?_
    have hauto : (GraphOp.apply g (.addNode node)).storeId stored
        = (GraphOp.apply g (.addNode node)).nextId := if_pos hid
    exact hauto.symm.trans (hright.again 0 stored stored hget rfl).1
  | addNodeWithName node name =>
    refine hadd node hfits fun stored hget hid _ => ?_
    have hauto : (GraphOp.apply g (.addNodeWithName node name)).storeId stored
        = (GraphOp.apply g (.addNodeWithName node name)).nextId := if_pos hid
    exact hauto.symm.trans (hright.again 0 stored stored hget rfl).1
  | addEdge edge => trivial
  | removeNode id => trivial
  | removeEdge source target => trivial

theorem nextId_lt_apply (h : g.nextId < 2 ^ 64) (op : GraphOp) : (op.apply g).nextId < 2 ^ 64 := by
  have hadd (node : GraphNode) : (g.addNode node).2.nextId < 2 ^ 64 := by
    rw [nextId_addNode]
    split
    . exact Nat.mod_lt _ (by decide)
    . exact h
  cases op with
  | addNode node => exact hadd node
  | addNodeWithName node name => exact hadd node
  | _ => exact h

/-- In every state of the run an add is right, and no add overflows the counter. -/
structure RunsRight (ops : List GraphOp) (g : InMemoryGraph) : Prop where
  addsRight : ∀ past, past <+: ops → AddsRight (run past g)
  counterFits : Along CounterFits ops g

theorem RunsRight.cons {op : GraphOp} {ops : List GraphOp} (h : RunsRight (op :: ops) g)
    : AddsRight (op.apply g) ∧ CounterFits g op ∧ RunsRight ops (op.apply g) := by
  refine ⟨?_, h.counterFits.1, ?_, h.counterFits.2⟩
  . exact h.addsRight [op] ((List.prefix_cons_inj op).mpr List.nil_prefix)
  . intro past hpast
    exact h.addsRight (op :: past) ((List.prefix_cons_inj op).mpr hpast)

theorem storesElsewhere_of_runsRight {ops : List GraphOp} (hnext : g.nextId < 2 ^ 64)
    (h : RunsRight ops g)
    : Along StoresElsewhere ops g := by
  induction ops generalizing g with
  | nil => trivial
  | cons op ops ih =>
    obtain ⟨hright, hfits, hrest⟩ := h.cons
    exact ⟨storesElsewhere_of_addsRight hnext hfits hright, ih (nextId_lt_apply hnext op) hrest⟩

theorem Along.of_prefix {P : InMemoryGraph → GraphOp → Prop} {past ops : List GraphOp}
    (h : Along P ops g) (hpast : past <+: ops)
    : Along P past g := by
  obtain ⟨more, rfl⟩ := hpast
  induction past generalizing g with
  | nil => trivial
  | cons op past ih => exact ⟨h.1, ih h.2⟩

theorem Along.imp {P Q : InMemoryGraph → GraphOp → Prop} (hPQ : ∀ g op, P g op → Q g op)
    {ops : List GraphOp} (h : Along P ops g)
    : Along Q ops g := by
  induction ops generalizing g with
  | nil => trivial
  | cons op ops ih => exact ⟨hPQ g op h.1, ih h.2⟩

/--
Adds allocate fresh ids, write fetched nodes back in place and never overflow the counter in all
states of a run exactly if no add of the run stores a node under 0 or under the last `u64`.
-/
theorem runsRight_iff (ops : List GraphOp) : RunsRight ops new ↔ Along StoresElsewhere ops new := by
  constructor
  . exact storesElsewhere_of_runsRight (show 0 < 2 ^ 64 by decide)
  . intro h
    refine ⟨fun past hpast => (Below.new.run (h.of_prefix hpast)).addsRight, h.imp ?_⟩
    intro g op hop
    cases op with
    | addNode node => exact fun _ => hop.2
    | addNodeWithName node name => exact fun _ => hop.2
    | _ => trivial

def fileNode : GraphNode where
  id := 0
  kind := .sourceFile
  scopeId := none
  fileId := 0
  line := 1
  col := 0

-- The first node gets the id 0, and adding it back with another line makes a copy
theorem addNode_copies_node_zero
    : (run [.addNode fileNode] new).getNode 0 = some fileNode
      ∧ (run [.addNode fileNode, .addNode { fileNode with line := 2 }] new).nodeCount = 2
      ∧ (run [.addNode fileNode, .addNode { fileNode with line := 2 }] new).getNode 0
        = some fileNode
      ∧ ¬AddsRight (run [.addNode fileNode] new)
      ∧ ¬CounterFits new (.addNode { fileNode with id := 2 ^ 64 - 1 }) := by
  have hget : (run [.addNode fileNode] new).getNode 0 = some fileNode := by decide
  refine ⟨hget, by decide, by decide, ?_, ?_⟩
  . intro h
    exact absurd (h.again 0 fileNode fileNode hget rfl).1 (by decide)
  . intro h
    exact absurd (h (by decide)) (by decide)

end InMemoryGraph
end HdlGraph
