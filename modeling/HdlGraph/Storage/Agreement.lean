import HdlGraph.Storage.Contents
import HdlGraph.Storage.Persistent
import Mathlib.Data.List.Dedup

/-!
This module compares the two graph stores after the same insertions. The in-memory store keeps an
edge as often as it was added, the persistent one keeps it once, since there an edge is a key.
-/

namespace HdlGraph

open scoped List

inductive Insertion where
  | node (node : GraphNode)
  | edge (edge : Edge)

namespace Insertion

-- `add_node` of a node whose id is 0 would give it another id
def Fits : Insertion → Prop
  | .node n => n.id ≠ 0 ∧ n.id < 2 ^ 64
  | .edge e => e.FitsU64

instance : (insertion : Insertion) → Decidable insertion.Fits
  | .node _ => inferInstanceAs (Decidable (_ ∧ _))
  | .edge e => inferInstanceAs (Decidable e.FitsU64)

def edge? : Insertion → Option Edge
  | .node _ => none
  | .edge e => some e

def intoMemory (g : InMemoryGraph) : Insertion → InMemoryGraph
  | .node n => (g.addNode n).2
  | .edge e => g.addEdge e

def intoRocks (codec : NodeCodec) (store : RocksGraphStore)
    : Insertion → Except Text RocksGraphStore
  | .node n => store.addNodeRaw codec n
  | .edge e => .ok (store.addEdgeRaw e)

end Insertion

def memoryGraph (insertions : List Insertion) : InMemoryGraph :=
  insertions.foldl Insertion.intoMemory .new

def rocksGraph (codec : NodeCodec) (insertions : List Insertion) : Except Text RocksGraphStore :=
  insertions.foldlM (Insertion.intoRocks codec) .empty

def insertedEdges (insertions : List Insertion) : List Edge := insertions.filterMap Insertion.edge?

/-- The two stores hold the same nodes and, apart from repetitions, the same edges. -/
structure AgreeUpToRepetition (codec : NodeCodec) (g : InMemoryGraph) (store : RocksGraphStore)
    : Prop where
  node : ∀ id < 2 ^ 64, store.getNodeRaw codec id = .ok (g.getNode id)
  outgoing : ∀ id < 2 ^ 64, store.getOutgoingRaw id ~ (g.getOutgoing id).dedup
  incoming : ∀ id < 2 ^ 64, store.getIncomingRaw id ~ (g.getIncoming id).dedup
  nodeCount : store.nodeCountRaw = g.nodeCount
  edgeCount : store.edgeCountRaw = g.allEdges.dedup.length

structure SameEdges (g : InMemoryGraph) (store : RocksGraphStore) : Prop where
  outgoing : ∀ id < 2 ^ 64, store.getOutgoingRaw id ~ g.getOutgoing id
  incoming : ∀ id < 2 ^ 64, store.getIncomingRaw id ~ g.getIncoming id
  edgeCount : store.edgeCountRaw = g.edgeCount

open RocksGraphStore

theorem EdgeView.Lists.perm_dedup {view : EdgeView} {written found : List Edge} {nodeId : NodeId}
    (h : view.Lists written nodeId found)
    : found ~ (written.filter fun e => view.near e = nodeId).dedup := by
  have hnodup : found.Nodup := by
    refine h.increasing.imp ?_
    rintro e e' (hlt | ⟨_, hlt⟩) heq
    . exact lt_irrefl _ (heq ▸ hlt)
    . exact Nat.lt_irrefl _ (heq ▸ hlt)
  rw [List.perm_ext_iff_of_nodup hnodup (List.nodup_dedup _)]
  intro e
  rw [h.mem_iff, List.mem_dedup, List.mem_filter, decide_eq_true_eq]

structure Corresponds (codec : NodeCodec) (g : InMemoryGraph) (store : RocksGraphStore)
    (log : List Edge) : Prop where
  logs : g.Logs log
  holds : store.Holds log
  fits : ∀ e ∈ log, e.FitsU64
  idFits : ∀ id ∈ g.nodes.keys, id < 2 ^ 64
  nodeKeys : ∀ k, k ∈ store.nodes.keys ↔ ∃ id ∈ g.nodes.keys, u64ToKey id = k
  stored : ∀ id node, g.getNode id = some node →
    ∃ value, store.nodes.get? (u64ToKey id) = some value ∧ codec.fromSlice value = .ok node

namespace Corresponds

variable {codec : NodeCodec} {g : InMemoryGraph} {store : RocksGraphStore} {log : List Edge}

theorem new : Corresponds codec .new .empty [] where
  logs := .new
  holds := .empty
  fits := by simp
  idFits := by
    intro id hid
    have ⟨node, hnode⟩ := Dict.mem_keys_iff.mp hid
    simp [InMemoryGraph.new] at hnode
  nodeKeys := by
    intro k
    simp [RocksGraphStore.empty, OrderedMap.keys, OrderedMap.empty, InMemoryGraph.new,
      Dict.mem_keys_iff]
  stored := by
    intro id node hnode
    simp [InMemoryGraph.getNode, InMemoryGraph.new] at hnode

theorem addEdge (h : Corresponds codec g store log) {edge : Edge} (hfits : edge.FitsU64)
    : Corresponds codec (g.addEdge edge) (store.addEdgeRaw edge) (log ++ [edge]) where
  logs := h.logs.addEdge edge
  holds := h.holds.addEdgeRaw edge
  fits := by
    intro e he
    cases List.mem_append.mp he with
    | inl he => exact h.fits e he
    | inr he => exact List.mem_singleton.mp he ▸ hfits
  idFits := h.idFits
  nodeKeys := h.nodeKeys
  stored := h.stored

theorem addNode (h : Corresponds codec g store log) {node : GraphNode} (hid : node.id ≠ 0)
    (hfits : node.id < 2 ^ 64) (hcodec : codec.RoundTrips node)
    : ∃ store', store.addNodeRaw codec node = .ok store'
        ∧ Corresponds codec (g.addNode node).2 store' log := by
  have ⟨value, hvalue, hback⟩ := hcodec
  have hstore : g.storeId node = node.id := if_neg hid
  have hnodes : (g.addNode node).2.nodes = g.nodes.insert node.id node := by
    rw [InMemoryGraph.addNode_nodes, hstore]
  have hmem : ∀ id, id ∈ (g.addNode node).2.nodes.keys ↔ id = node.id ∨ id ∈ g.nodes.keys := by
    intro id
    rw [hnodes, Dict.mem_keys_iff, Dict.mem_keys_iff, Dict.get?_insert]
    by_cases heq : id = node.id <;> simp [heq]
  refine ⟨_, addNodeRaw_eq hvalue store, ?_⟩
  exact {
    logs := h.logs.addNode node
    holds := ⟨h.holds.bySource, h.holds.byTarget⟩
    fits := h.fits
    idFits := by
      intro id hid
      cases (hmem id).mp hid with
      | inl heq => exact heq ▸ hfits
      | inr hold => exact h.idFits id hold
    nodeKeys := by
      intro k
      rw [OrderedMap.mem_keys_put, h.nodeKeys]
      simp only [hmem]
      grind
    stored := by
      intro id node' hnode
      rw [InMemoryGraph.getNode, hnodes, Dict.get?_insert] at hnode
      split at hnode
      . next heq =>
        rw [Option.some.injEq] at hnode
        subst hnode heq
        exact ⟨value, by rw [OrderedMap.get?_put, if_pos rfl], hback⟩
      . next hne =>
        have hold : id < 2 ^ 64 := h.idFits id (Dict.mem_keys_iff.mpr ⟨node', hnode⟩)
        have hkey : u64ToKey id ≠ u64ToKey node.id :=
          fun heq => hne ((u64ToKey_inj hold hfits).mp heq)
        rw [OrderedMap.get?_put, if_neg hkey]
        exact h.stored id node' hnode
  }

theorem insertAll (h : Corresponds codec g store log) {insertions : List Insertion}
    (hfits : ∀ insertion ∈ insertions, insertion.Fits)
    (hcodec : ∀ node, .node node ∈ insertions → codec.RoundTrips node)
    : ∃ store', insertions.foldlM (Insertion.intoRocks codec) store = .ok store'
        ∧ Corresponds codec (insertions.foldl Insertion.intoMemory g) store'
          (log ++ insertedEdges insertions) := by
  induction insertions generalizing g store log with
  | nil => exact ⟨store, rfl, by simpa [insertedEdges] using h⟩
  | cons insertion insertions ih =>
    have hfirst := hfits insertion List.mem_cons_self
    have hrest : ∀ other ∈ insertions, other.Fits :=
      fun other hother => hfits other (List.mem_cons_of_mem _ hother)
    have hcodecs : ∀ node, .node node ∈ insertions → codec.RoundTrips node :=
      fun node hnode => hcodec node (List.mem_cons_of_mem _ hnode)
    cases insertion with
    | node node =>
      obtain ⟨store', hstore', hnext⟩ :=
        h.addNode hfirst.1 hfirst.2 (hcodec node List.mem_cons_self)
      rw [List.foldlM_cons, Insertion.intoRocks, hstore']
      exact ih hnext hrest hcodecs
    | edge edge =>
      have hnext := ih (h.addEdge hfirst) hrest hcodecs
      rwa [List.append_assoc] at hnext

theorem getNodeRaw (h : Corresponds codec g store log) {id : NodeId} (hid : id < 2 ^ 64)
    : store.getNodeRaw codec id = .ok (g.getNode id) := by
  unfold RocksGraphStore.getNodeRaw
  cases hnode : g.getNode id with
  | some node =>
    obtain ⟨value, hvalue, hback⟩ := h.stored id node hnode
    rw [hvalue]
    simp only [hback]
    rfl
  | none =>
    have hnone : store.nodes.get? (u64ToKey id) = none := by
      by_contra hsome
      obtain ⟨id', hid', hkey⟩ :=
        (h.nodeKeys _).mp (OrderedMap.mem_keys_iff.mpr (Option.ne_none_iff_exists'.mp hsome))
      rw [u64ToKey_inj (h.idFits id' hid') hid] at hkey
      obtain ⟨node, hstored⟩ := Dict.mem_keys_iff.mp (hkey ▸ hid')
      simp [InMemoryGraph.getNode, hstored] at hnode
    rw [hnone]

theorem nodeCountRaw (h : Corresponds codec g store log) : store.nodeCountRaw = g.nodeCount := by
  have hinj : ∀ id ∈ g.nodes.keys, ∀ id' ∈ g.nodes.keys, u64ToKey id = u64ToKey id' → id = id' := by
    intro id hid id' hid' heq
    exact (u64ToKey_inj (h.idFits id hid) (h.idFits id' hid')).mp heq
  have hperm : store.nodes.keys ~ g.nodes.keys.map u64ToKey := by
    rw [List.perm_ext_iff_of_nodup store.nodes.keys_nodup (g.nodes.keys_nodup.map_on hinj)]
    intro k
    rw [h.nodeKeys, List.mem_map]
  have hlen := hperm.length_eq
  rwa [OrderedMap.keys, List.length_map, List.length_map, ← Dict.keys_eq, List.length_map] at hlen

theorem edgeCountRaw (h : Corresponds codec g store log)
    : store.edgeCountRaw = log.dedup.length := by
  have hinj : ∀ e ∈ log.dedup,
      ∀ e' ∈ log.dedup, EdgeView.outgoing.key e = EdgeView.outgoing.key e' → e = e' := by
    intro e he e' he' heq
    exact (EdgeView.key_inj (h.fits e (List.mem_dedup.mp he))
      (h.fits e' (List.mem_dedup.mp he'))).mp heq
  have hperm : store.edgesBySource.keys ~ log.dedup.map EdgeView.outgoing.key := by
    rw [List.perm_ext_iff_of_nodup store.edgesBySource.keys_nodup
      ((List.nodup_dedup log).map_on hinj)]
    intro k
    rw [h.holds.bySource, List.mem_map]
    simp only [List.mem_dedup]
  have hlen := hperm.length_eq
  rwa [OrderedMap.keys, List.length_map, List.length_map] at hlen

theorem agree (h : Corresponds codec g store log) : AgreeUpToRepetition codec g store where
  node _ hid := h.getNodeRaw hid
  outgoing id hid := by
    rw [h.logs.getOutgoing_eq]
    exact (h.holds.getOutgoingRaw h.fits hid).perm_dedup
  incoming id hid := by
    rw [h.logs.getIncoming_eq]
    exact (h.holds.getIncomingRaw h.fits hid).perm_dedup
  nodeCount := h.nodeCountRaw
  edgeCount := by rw [h.edgeCountRaw, h.logs.perm_allEdges.dedup.length_eq]

theorem sameEdges_iff (h : Corresponds codec g store log) : SameEdges g store ↔ log.Nodup := by
  constructor
  . intro hsame
    have hcount := hsame.edgeCount
    rw [h.edgeCountRaw, h.logs.edgeCount_eq] at hcount
    exact (List.dedup_sublist log).eq_of_length hcount ▸ List.nodup_dedup log
  . intro hnodup
    have hagree := h.agree
    refine ⟨?_, ?_, ?_⟩
    . intro id hid
      have hperm := hagree.outgoing id hid
      rwa [h.logs.getOutgoing_eq, (hnodup.filter _).dedup, ← h.logs.getOutgoing_eq] at hperm
    . intro id hid
      have hperm := hagree.incoming id hid
      rwa [h.logs.getIncoming_eq, (hnodup.filter _).dedup, ← h.logs.getIncoming_eq] at hperm
    . rw [h.edgeCountRaw, hnodup.dedup, h.logs.edgeCount_eq]

end Corresponds

/--
After the same insertions the two stores return the same nodes and count the same nodes. The
persistent store returns every edge once and counts the distinct edges, so that the edges of the two
stores agree exactly if no edge was inserted twice.
-/
theorem stores_agree_upToRepetition (codec : NodeCodec) (insertions : List Insertion)
    (hfits : ∀ insertion ∈ insertions, insertion.Fits)
    (hcodec : ∀ node, .node node ∈ insertions → codec.RoundTrips node)
    : ∃ store, rocksGraph codec insertions = .ok store
        ∧ AgreeUpToRepetition codec (memoryGraph insertions) store
        ∧ (SameEdges (memoryGraph insertions) store ↔ (insertedEdges insertions).Nodup) := by
  obtain ⟨store, hstore, h⟩ := (show Corresponds codec _ _ _ from .new).insertAll hfits hcodec
  exact ⟨store, hstore, h.agree, h.sameEdges_iff⟩

def edgeTwice : List Insertion :=
  [.node sourceFileNode, .edge ⟨1, 2, .contains⟩, .edge ⟨1, 2, .contains⟩, .edge ⟨1, 2, .drives⟩]

theorem stores_agree_upToRepetition_edgeTwice
    : ∃ store, rocksGraph sourceFileCodec edgeTwice = .ok store
        ∧ AgreeUpToRepetition sourceFileCodec (memoryGraph edgeTwice) store
        ∧ (SameEdges (memoryGraph edgeTwice) store ↔ (insertedEdges edgeTwice).Nodup) := by
  apply stores_agree_upToRepetition
  . decide
  . intro node hnode
    have hsource : node = sourceFileNode := by simpa [edgeTwice] using hnode
    exact ⟨sourceFileJson, hsource ▸ rfl, hsource ▸ rfl⟩

theorem stores_differ_edgeTwice
    : (rocksGraph sourceFileCodec edgeTwice).map
        (fun store => (store.getOutgoingRaw 1, store.edgeCountRaw))
          = .ok ([⟨1, 2, .contains⟩, ⟨1, 2, .drives⟩], 2)
        ∧ (memoryGraph edgeTwice).getOutgoing 1
          = [⟨1, 2, .contains⟩, ⟨1, 2, .contains⟩, ⟨1, 2, .drives⟩]
        ∧ (memoryGraph edgeTwice).edgeCount = 3
        ∧ ¬∃ store, rocksGraph sourceFileCodec edgeTwice = .ok store
          ∧ SameEdges (memoryGraph edgeTwice) store := by
  refine ⟨by decide, by decide, by decide, ?_⟩
  rintro ⟨store, hstore, hsame⟩
  have hcount : (rocksGraph sourceFileCodec edgeTwice).map edgeCountRaw = .ok 2 := by decide
  rw [hstore] at hcount
  have htwo : store.edgeCountRaw = 2 := Except.ok.inj hcount
  have hthree : (memoryGraph edgeTwice).edgeCount = 3 := by decide
  have hsum := hsame.edgeCount
  omega

end HdlGraph
