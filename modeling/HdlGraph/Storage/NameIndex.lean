import HdlGraph.Storage.Memory

/-!
This module contains what the name index of the graph store guarantees. `addNode` pushes the new id
without looking at the node it overwrites, so the index stays exact along the runs in which no add
lands on a stored node that has a name.
-/

namespace HdlGraph
namespace InMemoryGraph

-- `op` holds of every call of a run, in the state in which it is made
def Along (P : InMemoryGraph → GraphOp → Prop) : List GraphOp → InMemoryGraph → Prop
  | [], _ => True
  | op :: ops, g => P g op ∧ Along P ops (op.apply g)

def nameAt (g : InMemoryGraph) (id : NodeId) : Option Nat :=
  (g.nodes.get? id).bind fun node => extractNameId node.kind

-- `add_node_with_name(node, s)` is called with a node whose own name is the graph symbol for `s`
def NamesItself (g : InMemoryGraph) : GraphOp → Prop
  | .addNodeWithName node name => extractNameId node.kind = some (g.symbols.intern name).1.val
  | _ => True

/-- An added node does not land on a stored node that has a name. -/
def SparesNames (g : InMemoryGraph) : GraphOp → Prop
  | .addNode node => g.nameAt (g.storeId node) = none
  | .addNodeWithName node _ => g.nameAt (g.storeId node) = none
  | _ => True

/-- The index lists, under each name, the ids of the live nodes with that name, each once. -/
structure NamesIndexed (g : InMemoryGraph) : Prop where
  id_eq : ∀ (id : NodeId) (node : GraphNode), g.nodes.get? id = some node → node.id = id
  nodup : ∀ k : Nat, (g.getByInternedName k).Nodup
  mem_iff : ∀ (k : Nat) (id : NodeId), id ∈ g.getByInternedName k ↔ g.nameAt id = some k

/-- `get_by_name(s)` returns each live node named `s` exactly once and nothing else. -/
structure ByNameExact (g : InMemoryGraph) (s : Text) : Prop where
  once : ∀ (id : NodeId) (node : GraphNode), g.getNode id = some node →
    ∀ k : Nat, g.symbols.resolveId s = some k →
    extractNameId node.kind = some k → (g.getByName s).count node = 1
  sound : ∀ node ∈ g.getByName s, ∃ (id : NodeId) (k : Nat),
    g.getNode id = some node ∧ g.symbols.resolveId s = some k ∧ extractNameId node.kind = some k

theorem nameAt_addNode (g : InMemoryGraph) (node : GraphNode) (id : NodeId)
    : (g.addNode node).2.nameAt id
        =
      if id = g.storeId node then extractNameId node.kind else g.nameAt id := by
  unfold nameAt
  rw [addNode_nodes, Dict.get?_insert]
  split <;> rfl

theorem getByInternedName_addNode (g : InMemoryGraph) (node : GraphNode) (k : Nat)
    : (g.addNode node).2.getByInternedName k
        =
      if extractNameId node.kind = some k then
        g.getByInternedName k ++ [g.storeId node]
      else
        g.getByInternedName k := by
  unfold getByInternedName addNode
  dsimp only
  cases hname : extractNameId node.kind with
  | none => simp
  | some k' =>
    simp only [Buckets.push, Dict.getD_entry, Option.some.injEq]
    by_cases hk : k = k'
    . simp [hk]
    . have : ¬ k' = k := fun h => hk h.symm
      simp [hk, this]

theorem getByInternedName_addNodeWithName (g : InMemoryGraph) (node : GraphNode) (name : Text)
    (hname : extractNameId node.kind = some (g.symbols.intern name).1.val) (k : Nat)
    : (g.addNodeWithName node name).2.getByInternedName k
        = (g.addNode node).2.getByInternedName k := by
  have hmem : g.storeId node
      ∈ (g.addNode node).2.getByInternedName (g.symbols.intern name).1.val := by
    simp [getByInternedName_addNode, hname]
  change Dict.getD (Dict.entry (g.addNode node).2.byInternedName (g.symbols.intern name).1.val [] _)
      k []
    = (g.addNode node).2.getByInternedName k
  rw [Dict.getD_entry]
  split
  . next hk =>
    subst hk
    exact if_pos hmem
  . rfl

theorem nameAt_removeNode (g : InMemoryGraph) (id id' : NodeId)
    : (g.removeNode id).nameAt id' = if id' = id then none else g.nameAt id' := by
  unfold nameAt
  rw [removeNode_nodes, Dict.get?_remove]
  split <;> rfl

theorem getByInternedName_removeNode (g : InMemoryGraph) (id : NodeId) (k : Nat)
    : (g.removeNode id).getByInternedName k
        =
      if g.nameAt id = some k then
        (g.getByInternedName k).filter (· ≠ id)
      else
        g.getByInternedName k := by
  unfold getByInternedName removeNode nameAt
  dsimp only
  cases hname : (g.nodes.get? id).bind fun node => extractNameId node.kind with
  | none => simp
  | some k' =>
    dsimp only
    have hne : ¬ k = k' → ¬ some k' = some k := by
      intro hk h
      exact hk (Option.some.inj h).symm
    cases hids : g.byInternedName.get? k' with
    | none =>
      by_cases hk : k = k'
      . simp [Dict.getD, hk, hids]
      . simp [hne hk]
    | some ids =>
      dsimp only
      split
      . next hempty =>
        rw [Dict.getD_remove]
        by_cases hk : k = k'
        . simpa [Dict.getD, hk, hids, List.isEmpty_iff] using hempty
        . simp [hk, hne hk]
      . rw [Dict.getD_insert]
        by_cases hk : k = k'
        . simp [Dict.getD, hk, hids]
        . simp [hk, hne hk]

namespace NamesIndexed

variable {g : InMemoryGraph}

theorem new : NamesIndexed new where
  id_eq := by intro id node h; cases h
  nodup := fun _ => List.nodup_nil
  mem_iff := by simp [getByInternedName, InMemoryGraph.new, nameAt]

theorem notMem (h : NamesIndexed g) {id : NodeId} (hid : g.nameAt id = none) (k : Nat)
    : id ∉ g.getByInternedName k := by
  intro hmem
  rw [h.mem_iff, hid] at hmem
  cases hmem

theorem addNode (h : NamesIndexed g) (node : GraphNode) (hid : g.nameAt (g.storeId node) = none)
    : NamesIndexed (g.addNode node).2 where
  id_eq := by
    intro id stored hstored
    rw [addNode_nodes, Dict.get?_insert] at hstored
    split at hstored
    . next hid =>
      cases hstored
      exact hid.symm
    . exact h.id_eq id stored hstored
  nodup := by
    intro k
    rw [getByInternedName_addNode]
    split
    . rw [← List.concat_eq_append]
      exact (h.nodup k).concat (h.notMem hid k)
    . exact h.nodup k
  mem_iff := by
    intro k id
    rw [getByInternedName_addNode, nameAt_addNode]
    have := h.mem_iff k id
    have := h.notMem hid k
    grind

theorem addNodeWithName (h : NamesIndexed g) (node : GraphNode) (name : Text)
    (hname : extractNameId node.kind = some (g.symbols.intern name).1.val)
    (hid : g.nameAt (g.storeId node) = none)
    : NamesIndexed (g.addNodeWithName node name).2 where
  id_eq := (h.addNode node hid).id_eq
  nodup := by
    intro k
    rw [getByInternedName_addNodeWithName g node name hname]
    exact (h.addNode node hid).nodup k
  mem_iff := by
    intro k id
    rw [getByInternedName_addNodeWithName g node name hname]
    exact (h.addNode node hid).mem_iff k id

theorem removeNode (h : NamesIndexed g) (id : NodeId) : NamesIndexed (g.removeNode id) where
  id_eq := by
    intro id' stored hstored
    rw [removeNode_nodes, Dict.get?_remove] at hstored
    split at hstored
    . cases hstored
    . exact h.id_eq id' stored hstored
  nodup := by
    intro k
    rw [getByInternedName_removeNode]
    split
    . exact (h.nodup k).filter _
    . exact h.nodup k
  mem_iff := by
    intro k id'
    rw [getByInternedName_removeNode, nameAt_removeNode]
    have := h.mem_iff k id'
    grind

theorem apply (h : NamesIndexed g) (op : GraphOp) (hname : NamesItself g op)
    (hspare : SparesNames g op)
    : NamesIndexed (op.apply g) := by
  cases op with
  | intern s => exact ⟨h.id_eq, h.nodup, h.mem_iff⟩
  | addNode node => exact h.addNode node hspare
  | addNodeWithName node name => exact h.addNodeWithName node name hname hspare
  | addEdge edge => exact ⟨h.id_eq, h.nodup, h.mem_iff⟩
  | removeNode id => exact h.removeNode id
  | removeEdge source target => exact ⟨h.id_eq, h.nodup, h.mem_iff⟩

theorem run (h : NamesIndexed g) (ops : List GraphOp) (hname : Along NamesItself ops g)
    (hspare : Along SparesNames ops g)
    : NamesIndexed (run ops g) := by
  induction ops generalizing g with
  | nil => exact h
  | cons op ops ih => exact ih (h.apply op hname.1 hspare.1) hname.2 hspare.2

theorem nameAt_eq {id : NodeId} {node : GraphNode} (hnode : g.nodes.get? id = some node)
    : g.nameAt id = extractNameId node.kind := by
  simp [nameAt, hnode]

theorem byNameExact (h : NamesIndexed g) (s : Text) : ByNameExact g s := by
  cases hs : g.symbols.resolveId s with
  | none => exact ⟨by simp [hs], by simp [InMemoryGraph.getByName, hs]⟩
  | some k =>
    have stored : ∀ id ∈ g.getByInternedName k, ∃ node, g.nodes.get? id = some node := by
      intro id hid
      rw [h.mem_iff, nameAt, Option.bind_eq_some_iff] at hid
      exact ⟨hid.choose, hid.choose_spec.1⟩
    constructor
    . intro id node hnode k' hk' hkind
      rw [hs, Option.some.injEq] at hk'
      subst hk'
      simp only [InMemoryGraph.getByName, hs]
      have hid : id ∈ g.getByInternedName k := by
        rw [h.mem_iff, nameAt_eq hnode, hkind]
      apply List.count_eq_one_of_mem
      . apply (h.nodup k).filterMap
        intro id₁ id₂ found h₁ h₂
        rw [← h.id_eq id₁ found h₁, ← h.id_eq id₂ found h₂]
      . exact List.mem_filterMap.mpr ⟨id, hid, hnode⟩
    . intro node hnode
      simp only [InMemoryGraph.getByName, hs, List.mem_filterMap] at hnode
      have ⟨id, hid, hget⟩ := hnode
      refine ⟨id, k, hget, hs, ?_⟩
      rw [← nameAt_eq hget, ← h.mem_iff]
      exact hid

end NamesIndexed

/--
Along a run in which no add lands on a stored node with a name, `get_by_name` is exact in every
state.
-/
theorem getByName_exact_of_sparesNames (ops : List GraphOp) (hname : Along NamesItself ops new)
    (hspare : Along SparesNames ops new) (s : Text)
    : ByNameExact (run ops new) s :=
  (NamesIndexed.new.run ops hname hspare).byNameExact s

def clkNode : GraphNode where
  id := 7
  kind := .signalDecl ⟨0⟩ .logic
  scopeId := none
  fileId := 0
  line := 1
  col := 0

theorem getByName_exact_of_sparesNames_clk
    : ByNameExact (run [.intern "clk".toList, .addNode clkNode] new) "clk".toList :=
  getByName_exact_of_sparesNames [.intern "clk".toList, .addNode clkNode]
    ⟨trivial, trivial, trivial⟩ ⟨trivial, by rfl, trivial⟩ "clk".toList

-- Adding a node back under its id, as a caller does to change one of its fields, lists it twice
theorem getByName_lists_readded_node_twice
    : ¬ ∀ ops : List GraphOp, Along NamesItself ops new →
        ∀ s : Text, ByNameExact (run ops new) s := by
  intro h
  have hexact := h [.intern "clk".toList, .addNode clkNode, .addNode clkNode]
    ⟨trivial, trivial, trivial, trivial⟩ "clk".toList
  have := hexact.once 7 clkNode (by decide) 0 (by decide) (by decide)
  revert this
  decide

end InMemoryGraph
end HdlGraph
