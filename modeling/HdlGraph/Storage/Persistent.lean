import HdlGraph.Library.Bytes
import HdlGraph.Library.OrderedMap
import HdlGraph.Core.Node

/-!
This module contains the persistent graph store: nodes and edges in column families, which are maps
ordered bytewise by key. An edge is a key without a value, once from its source and once from its
target. The JSON encoding of the nodes is a parameter.
-/

namespace HdlGraph

abbrev ColumnFamily := OrderedMap Bytes Bytes

structure NodeCodec where
  toVec : GraphNode → Except Text Bytes
  fromSlice : Bytes → Except Text GraphNode

def NodeCodec.Serializes (codec : NodeCodec) (node : GraphNode) : Prop :=
  ∃ value, codec.toVec node = .ok value

def NodeCodec.RoundTrips (codec : NodeCodec) (node : GraphNode) : Prop :=
  ∃ value, codec.toVec node = .ok value ∧ codec.fromSlice value = .ok node

namespace EdgeType

def toByte : EdgeType → Byte
  | .contains => Byte.ofNat 0
  | .defines => Byte.ofNat 1
  | .references => Byte.ofNat 2
  | .imports => Byte.ofNat 3
  | .extends => Byte.ofNat 4
  | .instantiates => Byte.ofNat 5
  | .connects => Byte.ofNat 6
  | .drives => Byte.ofNat 7
  | .triggers => Byte.ofNat 8
  | .calls => Byte.ofNat 9
  | .overrides => Byte.ofNat 10
  | .macroExpands => Byte.ofNat 11
  | .factoryRegisters => Byte.ofNat 12
  | .factoryOverrides => Byte.ofNat 13
  | .tlmBinds => Byte.ofNat 14
  | .configSets => Byte.ofNat 15
  | .configGets => Byte.ofNat 16
  | .configResolves => Byte.ofNat 17

end EdgeType

structure RocksGraphStore where
  nodes : ColumnFamily
  edgesBySource : ColumnFamily
  edgesByTarget : ColumnFamily

namespace RocksGraphStore

def empty : RocksGraphStore := ⟨.empty, .empty, .empty⟩

def u64ToKey (id : NodeId) : Bytes := Bytes.bigEndian 8 id

def keyToU64 (key : Bytes) : NodeId := Bytes.ofBigEndian (key.take 8)

def edgeKey (source : NodeId) (edgeType : EdgeType) (target : NodeId) : Bytes :=
  u64ToKey source ++ edgeType.toByte :: u64ToKey target

def edgeTypeFromByte (b : Byte) : Option EdgeType :=
  match b.val with
  | 0 => some .contains
  | 1 => some .defines
  | 2 => some .references
  | 3 => some .imports
  | 4 => some .extends
  | 5 => some .instantiates
  | 6 => some .connects
  | 7 => some .drives
  | 8 => some .triggers
  | 9 => some .calls
  | 10 => some .overrides
  | 11 => some .macroExpands
  | 12 => some .factoryRegisters
  | 13 => some .factoryOverrides
  | 14 => some .tlmBinds
  | 15 => some .configSets
  | 16 => some .configGets
  | 17 => some .configResolves
  | _ => none

def addNodeRaw (codec : NodeCodec) (store : RocksGraphStore) (node : GraphNode)
    : Except Text RocksGraphStore := do
  let value ← codec.toVec node
  return { store with nodes := store.nodes.put (u64ToKey node.id) value }

def getNodeRaw (codec : NodeCodec) (store : RocksGraphStore) (id : NodeId)
    : Except Text (Option GraphNode) :=
  match store.nodes.get? (u64ToKey id) with
  | some bytes => (codec.fromSlice bytes).map some
  | none => .ok none

def addEdgeRaw (store : RocksGraphStore) (edge : Edge) : RocksGraphStore :=
  { store with
    edgesBySource := store.edgesBySource.put (edgeKey edge.source edge.edgeType edge.target) []
    edgesByTarget := store.edgesByTarget.put (edgeKey edge.target edge.edgeType edge.source) [] }

-- the loop over an iterator; it breaks at the first key that is too short or has another front
def scanEdges (front : Bytes) (edge : EdgeType → NodeId → Edge) : List (Bytes × Bytes) → List Edge
  | [] => []
  | (key, _) :: rest =>
    if key.length < 17 ∨ key.take 8 ≠ front then
      []
    else
      match key[8]?.bind edgeTypeFromByte with
      | some edgeType => edge edgeType (keyToU64 ((key.drop 9).take 8)) :: scanEdges front edge rest
      | none => scanEdges front edge rest

def getOutgoingRaw (store : RocksGraphStore) (nodeId : NodeId) : List Edge :=
  scanEdges (u64ToKey nodeId) (fun edgeType target => ⟨nodeId, target, edgeType⟩)
    (store.edgesBySource.iterFrom (u64ToKey nodeId))

def getIncomingRaw (store : RocksGraphStore) (nodeId : NodeId) : List Edge :=
  scanEdges (u64ToKey nodeId) (fun edgeType source => ⟨source, nodeId, edgeType⟩)
    (store.edgesByTarget.iterFrom (u64ToKey nodeId))

-- the batch is written as a whole, after all of its nodes are serialized
def batchWrite (codec : NodeCodec) (store : RocksGraphStore) (nodes : List GraphNode)
    (edges : List Edge)
    : Except Text RocksGraphStore := do
  let values ← nodes.mapM fun node => return (u64ToKey node.id, ← codec.toVec node)
  let bySource := edges.map fun edge => edgeKey edge.source edge.edgeType edge.target
  let byTarget := edges.map fun edge => edgeKey edge.target edge.edgeType edge.source
  return {
    nodes := values.foldl (fun m e => m.put e.1 e.2) store.nodes
    edgesBySource := bySource.foldl (fun m key => m.put key []) store.edgesBySource
    edgesByTarget := byTarget.foldl (fun m key => m.put key []) store.edgesByTarget
  }

def nodeCountRaw (store : RocksGraphStore) : Nat := store.nodes.entries.length

def edgeCountRaw (store : RocksGraphStore) : Nat := store.edgesBySource.entries.length

end RocksGraphStore

inductive StoreOp where
  | addNode (node : GraphNode)
  | addEdge (edge : Edge)
  | batchWrite (nodes : List GraphNode) (edges : List Edge)

namespace StoreOp

def nodes : StoreOp → List GraphNode
  | addNode node => [node]
  | addEdge _ => []
  | batchWrite nodes _ => nodes

def edges : StoreOp → List Edge
  | addNode _ => []
  | addEdge edge => [edge]
  | batchWrite _ edges => edges

def apply (codec : NodeCodec) (store : RocksGraphStore) : StoreOp → Except Text RocksGraphStore
  | addNode node => store.addNodeRaw codec node
  | addEdge edge => .ok (store.addEdgeRaw edge)
  | batchWrite nodes edges => store.batchWrite codec nodes edges

end StoreOp

namespace RocksGraphStore

def run (codec : NodeCodec) (ops : List StoreOp) (store : RocksGraphStore)
    : Except Text RocksGraphStore :=
  ops.foldlM (StoreOp.apply codec) store

end RocksGraphStore

/-! ## The edge index -/

def Edge.FitsU64 (e : Edge) : Prop := e.source < 2 ^ 64 ∧ e.target < 2 ^ 64

instance (e : Edge) : Decidable e.FitsU64 := inferInstanceAs (Decidable (_ ∧ _))

structure EdgeView where
  near : Edge → NodeId
  far : Edge → NodeId
  edge : NodeId → EdgeType → NodeId → Edge
  edge_eq : ∀ e, edge (near e) e.edgeType (far e) = e
  fits : ∀ e, e.FitsU64 → near e < 2 ^ 64 ∧ far e < 2 ^ 64

namespace EdgeView

def outgoing : EdgeView where
  near := Edge.source
  far := Edge.target
  edge source edgeType target := ⟨source, target, edgeType⟩
  edge_eq _ := rfl
  fits _ h := h

def incoming : EdgeView where
  near := Edge.target
  far := Edge.source
  edge target edgeType source := ⟨source, target, edgeType⟩
  edge_eq _ := rfl
  fits _ h := ⟨h.2, h.1⟩

def key (view : EdgeView) (e : Edge) : Bytes :=
  RocksGraphStore.edgeKey (view.near e) e.edgeType (view.far e)

structure Lists (view : EdgeView) (written : List Edge) (nodeId : NodeId) (found : List Edge)
    : Prop where
  mem_iff : ∀ e, e ∈ found ↔ e ∈ written ∧ view.near e = nodeId
  increasing : found.Pairwise fun e e' =>
    e.edgeType.toByte < e'.edgeType.toByte ∨ e.edgeType = e'.edgeType ∧ view.far e < view.far e'

def Indexes (view : EdgeView) (m : ColumnFamily) (written : List Edge) : Prop :=
  ∀ k, k ∈ m.keys ↔ ∃ e ∈ written, view.key e = k

end EdgeView

namespace RocksGraphStore

@[simp]
theorem edgeTypeFromByte_toByte (edgeType : EdgeType)
    : edgeTypeFromByte edgeType.toByte = some edgeType := by
  cases edgeType <;> rfl

theorem toByte_inj {edgeType edgeType' : EdgeType} : edgeType.toByte = edgeType'.toByte
    ↔ edgeType = edgeType' := by
  constructor
  . intro h
    have := edgeTypeFromByte_toByte edgeType
    rw [h, edgeTypeFromByte_toByte] at this
    exact (Option.some.inj this).symm
  . exact fun h => h ▸ rfl

@[simp]
theorem length_u64ToKey (id : NodeId) : (u64ToKey id).length = 8 := Bytes.length_bigEndian 8 id

theorem u64ToKey_inj {id id' : NodeId} (h : id < 2 ^ 64) (h' : id' < 2 ^ 64)
    : u64ToKey id = u64ToKey id' ↔ id = id' :=
  Bytes.bigEndian_inj h h'

theorem keyToU64_u64ToKey {id : NodeId} (h : id < 2 ^ 64) : keyToU64 (u64ToKey id) = id := by
  rw [keyToU64, List.take_of_length_le (by simp)]
  exact Bytes.ofBigEndian_bigEndian h

@[simp]
theorem length_edgeKey (source : NodeId) (edgeType : EdgeType) (target : NodeId)
    : (edgeKey source edgeType target).length = 17 := by
  simp [edgeKey]

@[simp]
theorem take_edgeKey (source : NodeId) (edgeType : EdgeType) (target : NodeId)
    : (edgeKey source edgeType target).take 8 = u64ToKey source := by
  rw [edgeKey, List.take_append_of_le_length (by simp), List.take_of_length_le (by simp)]

@[simp]
theorem getElem?_edgeKey (source : NodeId) (edgeType : EdgeType) (target : NodeId)
    : (edgeKey source edgeType target)[8]? = some edgeType.toByte := by
  rw [edgeKey, List.getElem?_append_right (by simp)]
  simp

@[simp]
theorem drop_edgeKey (source : NodeId) (edgeType : EdgeType) (target : NodeId)
    : ((edgeKey source edgeType target).drop 9).take 8 = u64ToKey target := by
  have hdrop : (edgeKey source edgeType target).drop 9 = u64ToKey target := by
    rw [edgeKey, List.drop_append, List.drop_of_length_le (by simp)]
    simp
  rw [hdrop, List.take_of_length_le (by simp)]

theorem edgeKey_lt_iff (near : NodeId) {edgeType edgeType' : EdgeType} {far far' : NodeId}
    (h : far < 2 ^ 64) (h' : far' < 2 ^ 64)
    : edgeKey near edgeType far < edgeKey near edgeType' far'
        ↔
      edgeType.toByte < edgeType'.toByte ∨ edgeType = edgeType' ∧ far < far' := by
  rw [edgeKey, edgeKey, Bytes.lt_append_left, List.cons_lt_cons_iff, toByte_inj, u64ToKey, u64ToKey,
    Bytes.bigEndian_lt_iff h h']

def decodeEntry (edge : EdgeType → NodeId → Edge) (entry : Bytes × Bytes) : Option Edge :=
  (entry.1[8]?.bind edgeTypeFromByte).map fun edgeType =>
    edge edgeType (keyToU64 ((entry.1.drop 9).take 8))

theorem scanEdges_eq (front : Bytes) (edge : EdgeType → NodeId → Edge)
    (entries : List (Bytes × Bytes))
    : scanEdges front edge entries
        =
      (entries.takeWhile fun entry => 17 ≤ entry.1.length ∧ entry.1.take 8 = front).filterMap
      (decodeEntry edge) := by
  induction entries with
  | nil => rfl
  | cons entry rest ih =>
    unfold scanEdges
    split
    . next hbreak =>
      rw [List.takeWhile_cons_of_neg]
      . rfl
      . rw [decide_eq_true_eq]
        exact fun ⟨hlen, hfront⟩ => hbreak.elim (Nat.not_lt.mpr hlen) (· hfront)
    . next hgo =>
      rw [not_or, Nat.not_lt, ne_eq, not_not] at hgo
      rw [List.takeWhile_cons_of_pos (by simpa using hgo), List.filterMap_cons, decodeEntry, ih]
      cases entry.1[8]?.bind edgeTypeFromByte <;> rfl

end RocksGraphStore

namespace EdgeView

open RocksGraphStore

variable {view : EdgeView}

theorem key_inj {e e' : Edge} (h : e.FitsU64) (h' : e'.FitsU64) : view.key e = view.key e'
    ↔ e = e' := by
  constructor
  . intro heq
    have hnear := congrArg (List.take 8) heq
    have htype := congrArg (·[8]?) heq
    have hfar := congrArg (fun k => (k.drop 9).take 8) heq
    simp only [key, take_edgeKey, getElem?_edgeKey, drop_edgeKey, Option.some.injEq]
      at hnear htype hfar
    rw [u64ToKey_inj (view.fits e h).1 (view.fits e' h').1] at hnear
    rw [u64ToKey_inj (view.fits e h).2 (view.fits e' h').2] at hfar
    rw [← view.edge_eq e, ← view.edge_eq e', hnear, toByte_inj.mp htype, hfar]
  . exact fun heq => heq ▸ rfl

theorem decodeEntry_key {e : Edge} (h : e.FitsU64) (value : Bytes)
    : decodeEntry (view.edge (view.near e)) (view.key e, value) = some e := by
  simp only [decodeEntry, key, getElem?_edgeKey, Option.bind_some, edgeTypeFromByte_toByte,
    Option.map_some, drop_edgeKey, keyToU64_u64ToKey (view.fits e h).2, view.edge_eq]

theorem Indexes.exists_key {m : ColumnFamily} {written : List Edge} (h : view.Indexes m written)
    {entry : Bytes × Bytes} (hentry : entry ∈ m.entries)
    : ∃ e ∈ written, view.key e = entry.1 :=
  (h entry.1).mp (List.mem_map_of_mem hentry)

theorem Indexes.length_key {m : ColumnFamily} {written : List Edge} (h : view.Indexes m written)
    {entry : Bytes × Bytes} (hentry : entry ∈ m.entries)
    : entry.1.length = 17 := by
  obtain ⟨e, _, heq⟩ := h.exists_key hentry
  rw [← heq, key, length_edgeKey]

theorem Indexes.decodeEntry {m : ColumnFamily} {written : List Edge} (h : view.Indexes m written)
    (hfits : ∀ e ∈ written, e.FitsU64) {nodeId : NodeId} (hid : nodeId < 2 ^ 64)
    {entry : Bytes × Bytes} (hentry : entry ∈ m.entries) (hfront : entry.1.take 8 = u64ToKey nodeId)
    : ∃ e ∈ written, view.near e = nodeId ∧ view.key e = entry.1
        ∧ RocksGraphStore.decodeEntry (view.edge nodeId) entry = some e := by
  obtain ⟨e, he, heq⟩ := h.exists_key hentry
  have hnear : view.near e = nodeId := by
    rw [← heq, key, take_edgeKey, u64ToKey_inj (view.fits e (hfits e he)).1 hid] at hfront
    exact hfront
  refine ⟨e, he, hnear, heq, ?_⟩
  rw [← hnear, ← decodeEntry_key (hfits e he) entry.2, heq]

theorem Indexes.scanEdges {m : ColumnFamily} {written : List Edge} (h : view.Indexes m written)
    (hfits : ∀ e ∈ written, e.FitsU64) {nodeId : NodeId} (hid : nodeId < 2 ^ 64)
    : view.Lists written nodeId
        (RocksGraphStore.scanEdges (u64ToKey nodeId) (view.edge nodeId)
          (m.iterFrom (u64ToKey nodeId))) := by
  rw [scanEdges_eq, OrderedMap.takeWhile_iterFrom]
  . constructor
    . intro e
      simp only [List.mem_filterMap, List.mem_filter, decide_eq_true_eq]
      constructor
      . rintro ⟨entry, ⟨hentry, _, hfront⟩, hdecode⟩
        obtain ⟨e', he', hnear, _, hdecode'⟩ := h.decodeEntry hfits hid hentry hfront
        rw [hdecode, Option.some.injEq] at hdecode'
        exact hdecode' ▸ ⟨he', hnear⟩
      . rintro ⟨he, hnear⟩
        obtain ⟨entry, hentry, heq⟩ := List.mem_map.mp ((h (view.key e)).mpr ⟨e, he, rfl⟩)
        refine ⟨entry, ⟨hentry, by rw [h.length_key hentry], ?_⟩, ?_⟩
        . rw [heq, key, take_edgeKey, hnear]
        . rw [← hnear, ← decodeEntry_key (hfits e he) entry.2, ← heq]
    . rw [List.pairwise_filterMap]
      refine (m.sorted.filter _).imp_of_mem ?_
      intro entry entry' hentry hentry' hlt e hdecode e' hdecode'
      simp only [List.mem_filter, decide_eq_true_eq] at hentry hentry'
      obtain ⟨e₁, he₁, hnear₁, hkey₁, hdecode₁⟩ := h.decodeEntry hfits hid hentry.1 hentry.2.2
      obtain ⟨e₂, he₂, hnear₂, hkey₂, hdecode₂⟩ := h.decodeEntry hfits hid hentry'.1 hentry'.2.2
      rw [hdecode, Option.some.injEq] at hdecode₁
      rw [hdecode', Option.some.injEq] at hdecode₂
      subst hdecode₁ hdecode₂
      rw [← hkey₁, ← hkey₂, key, key, hnear₁, hnear₂,
        edgeKey_lt_iff nodeId (view.fits _ (hfits _ he₁)).2 (view.fits _ (hfits _ he₂)).2] at hlt
      exact hlt
  . intro entry _ hfront
    rw [decide_eq_true_eq] at hfront
    rw [← hfront.2]
    conv => rhs; rw [← List.take_append_drop 8 entry.1]
    exact Bytes.le_append _ _
  . intro entry hentry entry' _ hle hlt hfront
    rw [decide_eq_true_eq] at *
    have hstart := Bytes.prefix_of_le_of_lt hle hlt (hfront.2 ▸ List.take_prefix 8 entry'.1)
    rw [List.prefix_iff_eq_take, length_u64ToKey] at hstart
    exact ⟨by rw [h.length_key hentry], hstart.symm⟩

theorem Indexes.empty : view.Indexes .empty [] := by
  intro k
  simp [OrderedMap.keys, OrderedMap.empty]

theorem Indexes.put {m : ColumnFamily} {written : List Edge} (h : view.Indexes m written) (e : Edge)
    : view.Indexes (m.put (view.key e) []) (written ++ [e]) := by
  intro k
  rw [OrderedMap.mem_keys_put, h]
  simp only [List.mem_append, List.mem_singleton]
  grind

end EdgeView

namespace RocksGraphStore

structure Holds (store : RocksGraphStore) (written : List Edge) : Prop where
  bySource : EdgeView.outgoing.Indexes store.edgesBySource written
  byTarget : EdgeView.incoming.Indexes store.edgesByTarget written

namespace Holds

variable {store : RocksGraphStore} {written : List Edge} {codec : NodeCodec}

theorem empty : Holds empty [] := ⟨.empty, .empty⟩

theorem addEdgeRaw (h : Holds store written) (edge : Edge)
    : Holds (store.addEdgeRaw edge) (written ++ [edge]) where
  bySource := h.bySource.put edge
  byTarget := h.byTarget.put edge

theorem addEdges (h : Holds store written) (edges : List Edge)
    : Holds (edges.foldl RocksGraphStore.addEdgeRaw store) (written ++ edges) := by
  induction edges generalizing store written with
  | nil => simpa using h
  | cons e edges ih =>
    have hrest := ih (h.addEdgeRaw e)
    rwa [List.append_assoc, List.singleton_append] at hrest

theorem getOutgoingRaw (h : Holds store written) (hfits : ∀ e ∈ written, e.FitsU64)
    {nodeId : NodeId} (hid : nodeId < 2 ^ 64)
    : EdgeView.outgoing.Lists written nodeId (store.getOutgoingRaw nodeId) :=
  h.bySource.scanEdges hfits hid

theorem getIncomingRaw (h : Holds store written) (hfits : ∀ e ∈ written, e.FitsU64)
    {nodeId : NodeId} (hid : nodeId < 2 ^ 64)
    : EdgeView.incoming.Lists written nodeId (store.getIncomingRaw nodeId) :=
  h.byTarget.scanEdges hfits hid

end Holds

variable {codec : NodeCodec}

theorem addNodeRaw_eq {node : GraphNode} {value : Bytes} (h : codec.toVec node = .ok value)
    (store : RocksGraphStore)
    : store.addNodeRaw codec node
        = .ok { store with nodes := store.nodes.put (u64ToKey node.id) value } := by
  rw [addNodeRaw, h]
  rfl

theorem batchWrite_eq {nodes : List GraphNode} (h : ∀ node ∈ nodes, codec.Serializes node)
    (edges : List Edge) (store : RocksGraphStore)
    : store.batchWrite codec nodes edges
        =
      (nodes.foldlM (addNodeRaw codec) store).map fun store => edges.foldl addEdgeRaw store := by
  have hedges : ∀ store : RocksGraphStore,
      edges.foldl addEdgeRaw store = {
        nodes := store.nodes
        edgesBySource :=
          (edges.map EdgeView.outgoing.key).foldl (fun m key => m.put key []) store.edgesBySource
        edgesByTarget :=
          (edges.map EdgeView.incoming.key).foldl (fun m key => m.put key [])
            store.edgesByTarget } := by
    intro store
    induction edges generalizing store with
    | nil => rfl
    | cons e edges ih => exact ih (store.addEdgeRaw e)
  unfold batchWrite
  induction nodes generalizing store with
  | nil => exact congrArg Except.ok (hedges store).symm
  | cons node nodes ih =>
    obtain ⟨value, hvalue⟩ := h node List.mem_cons_self
    have hrest := ih (fun other hother => h other (List.mem_cons_of_mem _ hother))
      { store with nodes := store.nodes.put (u64ToKey node.id) value }
    rw [List.foldlM_cons, addNodeRaw_eq hvalue]
    refine Eq.trans ?_ hrest
    simp only [List.mapM_cons, hvalue]
    generalize List.mapM (m := Except Text) _ nodes = values
    cases values <;> rfl

end RocksGraphStore

namespace StoreOp

open RocksGraphStore

variable {codec : NodeCodec}

theorem addNodes_holds {nodes : List GraphNode} (h : ∀ node ∈ nodes, codec.Serializes node)
    {store : RocksGraphStore} {written : List Edge} (hstore : Holds store written)
    : ∃ store', nodes.foldlM (addNodeRaw codec) store = .ok store' ∧ Holds store' written := by
  induction nodes generalizing store with
  | nil => exact ⟨store, rfl, hstore⟩
  | cons node nodes ih =>
    obtain ⟨value, hvalue⟩ := h node List.mem_cons_self
    rw [List.foldlM_cons, addNodeRaw_eq hvalue]
    exact ih (fun other hother => h other (List.mem_cons_of_mem _ hother))
      ⟨hstore.bySource, hstore.byTarget⟩

theorem apply_holds {op : StoreOp} (h : ∀ node ∈ op.nodes, codec.Serializes node)
    {store : RocksGraphStore} {written : List Edge} (hstore : Holds store written)
    : ∃ store', op.apply codec store = .ok store' ∧ Holds store' (written ++ op.edges) := by
  cases op with
  | addNode node =>
    obtain ⟨value, hvalue⟩ := h node List.mem_cons_self
    rw [show written ++ (addNode node).edges = written from List.append_nil _]
    exact ⟨_, addNodeRaw_eq hvalue store, hstore.bySource, hstore.byTarget⟩
  | addEdge edge => exact ⟨_, rfl, hstore.addEdgeRaw edge⟩
  | batchWrite nodes edges =>
    have hnodes : ∀ node ∈ nodes, codec.Serializes node := h
    obtain ⟨store', hstore', hholds⟩ := addNodes_holds hnodes hstore
    rw [apply, batchWrite_eq hnodes, hstore']
    exact ⟨_, rfl, hholds.addEdges edges⟩

end StoreOp

namespace RocksGraphStore

theorem run_holds {codec : NodeCodec} {ops : List StoreOp}
    (h : ∀ op ∈ ops, ∀ node ∈ op.nodes, codec.Serializes node) {store : RocksGraphStore}
    {written : List Edge} (hstore : Holds store written)
    : ∃ store', run codec ops store = .ok store'
        ∧ Holds store' (written ++ ops.flatMap StoreOp.edges) := by
  unfold run
  induction ops generalizing store written with
  | nil => exact ⟨store, rfl, by simpa using hstore⟩
  | cons op ops ih =>
    obtain ⟨store', hop, hholds⟩ := StoreOp.apply_holds (h op List.mem_cons_self) hstore
    have hrest := ih (fun other hother => h other (List.mem_cons_of_mem _ hother)) hholds
    rwa [List.foldlM_cons, hop, List.flatMap_cons, ← List.append_assoc]

theorem batchWrite_eq_run {codec : NodeCodec} {nodes : List GraphNode}
    (h : ∀ node ∈ nodes, codec.Serializes node) (edges : List Edge) (store : RocksGraphStore)
    : store.batchWrite codec nodes edges
        = run codec (nodes.map .addNode ++ edges.map .addEdge) store := by
  have hedges : ∀ store : RocksGraphStore,
      (edges.map StoreOp.addEdge).foldlM (StoreOp.apply codec) store
      = .ok (edges.foldl addEdgeRaw store) := by
    intro store
    induction edges generalizing store with
    | nil => rfl
    | cons e edges ih => exact ih (store.addEdgeRaw e)
  rw [batchWrite_eq h, run, List.foldlM_append, List.foldlM_map]
  change Except.map _ (nodes.foldlM (addNodeRaw codec) store)
    = nodes.foldlM (addNodeRaw codec) store >>= _
  cases nodes.foldlM (addNodeRaw codec) store with
  | error message => rfl
  | ok store => exact (hedges store).symm

/--
After any sequence of writes, the scans of a node give the edges that were written from it and to
it, each once and in the order of the keys; a batch is the same as the writes of its items.
-/
theorem run_indexes_exact (codec : NodeCodec) (ops : List StoreOp)
    (hfits : ∀ op ∈ ops, ∀ e ∈ op.edges, e.FitsU64)
    (hserializes : ∀ op ∈ ops, ∀ node ∈ op.nodes, codec.Serializes node)
    : ∃ store, run codec ops empty = .ok store
        ∧ (∀ nodeId < 2 ^ 64,
            EdgeView.outgoing.Lists (ops.flatMap StoreOp.edges) nodeId (store.getOutgoingRaw nodeId)
              ∧ EdgeView.incoming.Lists (ops.flatMap StoreOp.edges) nodeId
                (store.getIncomingRaw nodeId))
        ∧ ∀ nodes edges, (∀ node ∈ nodes, codec.Serializes node) →
            store.batchWrite codec nodes edges
              = run codec (nodes.map .addNode ++ edges.map .addEdge) store := by
  obtain ⟨store, hrun, hholds⟩ := run_holds hserializes Holds.empty
  rw [List.nil_append] at hholds
  have hwritten : ∀ e ∈ ops.flatMap StoreOp.edges, e.FitsU64 := by
    intro e he
    obtain ⟨op, hop, he⟩ := List.mem_flatMap.mp he
    exact hfits op hop e he
  refine ⟨store, hrun, ?_, ?_⟩
  . intro nodeId hid
    exact ⟨hholds.getOutgoingRaw hwritten hid, hholds.getIncomingRaw hwritten hid⟩
  . intro nodes edges hnodes
    exact batchWrite_eq_run hnodes edges store

def sourceFileNode : GraphNode where
  id := 1
  kind := .sourceFile
  scopeId := none
  fileId := 0
  line := 1
  col := 0

def sourceFileJson : Bytes :=
  "\x7b\"id\":1,\"kind\":\"SourceFile\",\"scope_id\":null,\"file_id\":0,\"line\":1,\"col\":0\x7d".toList.map fun c =>
    Byte.ofNat c.toNat

-- serde on this one node
def sourceFileCodec : NodeCodec where
  toVec node := if node = sourceFileNode then .ok sourceFileJson else .error "other node".toList
  fromSlice value :=
    if value = sourceFileJson then .ok sourceFileNode else .error "other value".toList

def extremeOps : List StoreOp :=
  [.addEdge ⟨0, 2 ^ 64 - 1, .drives⟩, .addEdge ⟨0, 256, .contains⟩,
    .batchWrite [sourceFileNode] [⟨1, 0, .contains⟩, ⟨0, 255, .contains⟩, ⟨0, 256, .contains⟩],
    .addEdge ⟨2 ^ 64 - 1, 0, .contains⟩]

theorem run_indexes_exact_extremeOps
    : ∃ store, run sourceFileCodec extremeOps empty = .ok store
        ∧ (∀ nodeId < 2 ^ 64,
            EdgeView.outgoing.Lists (extremeOps.flatMap StoreOp.edges) nodeId
                (store.getOutgoingRaw nodeId)
              ∧ EdgeView.incoming.Lists (extremeOps.flatMap StoreOp.edges) nodeId
                (store.getIncomingRaw nodeId))
        ∧ ∀ nodes edges, (∀ node ∈ nodes, sourceFileCodec.Serializes node) →
            store.batchWrite sourceFileCodec nodes edges
              = run sourceFileCodec (nodes.map .addNode ++ edges.map .addEdge) store := by
  apply run_indexes_exact
  . decide
  . intro op hop node hnode
    have honly : ∀ op ∈ extremeOps, ∀ node ∈ op.nodes, node = sourceFileNode := by decide
    exact ⟨sourceFileJson, honly op hop node hnode ▸ rfl⟩

example : (run sourceFileCodec extremeOps empty).map (·.getOutgoingRaw 0)
    = .ok [⟨0, 255, .contains⟩, ⟨0, 256, .contains⟩, ⟨0, 2 ^ 64 - 1, .drives⟩] := by
  decide

end RocksGraphStore

end HdlGraph
